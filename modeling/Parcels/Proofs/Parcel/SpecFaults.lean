import Parcels.Parcel.Spec
import Parcels.Proofs.Error

/-!
# What is said of a refused spec

Whatever a spec is refused for, the message quotes the file that it comes from.
The file decides nothing else: the same text is refused in the same way in any
other file, and no more of the message changes than the file quoted.
-/

namespace Parcels

/-! ## The file in a message -/

/-- The form in which most messages show a file, after what they say of it. -/
def Frame.inFile (said : String) : Frame :=
  ⟨said ++ " (filepath ", ")"⟩

theorem Error.append_inFile (said path : String) :
    said ++ inFile path = (Frame.inFile said).around path := by
  have hopen : " (filepath '" = " (filepath " ++ "'" := rfl
  have hclose : "')" = "'" ++ ")" := rfl
  rw [inFile, hopen, hclose]
  simp only [Frame.around, Frame.inFile, String.append_assoc]

namespace Parcel.Spec

/-- What can be wrong with a spec, whatever file it comes from. -/
inductive Fault where
  | invalidJson
  | notAHash
  | wrongType (key : String) (expected : Json.Kind)
  | unknownKey (key : String)
  | missingKey (key : String)
  | invalidPrereqValue (name : String)
  | malformed (fault : Malformed)

namespace Fault

def inFile (path : String) : Fault → Error
  | invalidJson => .invalidJson path
  | notAHash => .notAHash path
  | wrongType key expected => .wrongType key expected path
  | unknownKey key => .unknownKey key path
  | missingKey key => .missingKey key path
  | invalidPrereqValue name => .invalidPrereqValue name path
  | malformed fault => .malformedIn path fault

def frame : Fault → Frame
  | invalidJson => ⟨"Invalid JSON parcel definition in ", ""⟩
  | notAHash => ⟨"Parcel definition must be a hash in ", ""⟩
  | wrongType key expected => .inFile ("'" ++ key ++ "' must be a " ++ expected.label)
  | unknownKey key => .inFile ("Unrecognized key: '" ++ key ++ "'")
  | missingKey key => .inFile ("Missing required key '" ++ key ++ "'")
  | invalidPrereqValue name => .inFile ("Invalid prereq value for '" ++ name ++ "'")
  | malformed fault => .inFile fault.message

theorem kind_inFile (fault : Fault) (path : String) : (fault.inFile path).kind = .parse := by
  cases fault <;> rfl

theorem message_inFile (fault : Fault) (path : String) :
    (fault.inFile path).message = fault.frame.around path := by
  cases fault with
  | invalidJson =>
      change "Invalid JSON parcel definition in " ++ "'" ++ path ++ "'" = _
      simp only [frame, Frame.around, String.append_empty]
  | notAHash =>
      change "Parcel definition must be a hash in " ++ "'" ++ path ++ "'" = _
      simp only [frame, Frame.around, String.append_empty]
  | wrongType => exact Error.append_inFile _ path
  | unknownKey => exact Error.append_inFile _ path
  | missingKey => exact Error.append_inFile _ path
  | invalidPrereqValue => exact Error.append_inFile _ path
  | malformed => exact Error.append_inFile _ path

theorem inFile_injective (path : String) : Function.Injective (inFile path) := by
  intro first second heq
  cases first <;> cases second <;> cases heq <;> rfl

end Fault

/-! ## The same text in two files -/

section Alike

variable {path other : String} {Result Next : Type}

/-- Reading something in one file and in the other ends in the same way. -/
inductive Alike (path other : String) : Except Error Result → Except Error Result → Prop where
  | ok (result : Result) : Alike path other (.ok result) (.ok result)
  | error (fault : Fault) :
      Alike path other (.error (fault.inFile path)) (.error (fault.inFile other))

namespace Alike

theorem bind {left right : Except Error Result} {leftNext rightNext : Result → Except Error Next}
    (hfirst : Alike path other left right)
    (hnext : ∀ result, Alike path other (leftNext result) (rightNext result)) :
    Alike path other (left >>= leftNext) (right >>= rightNext) := by
  cases hfirst with
  | ok result => exact hnext result
  | error fault => exact .error fault

theorem map {left right : Except Error Result} (hfirst : Alike path other left right)
    (record : Result → Next) :
    Alike path other (do return record (← left)) (do return record (← right)) :=
  hfirst.bind fun result => .ok (record result)

/-- A constructor that knows of no file is told the file afterwards. -/
theorem located (outcome : Except Malformed Result) :
    Alike path other (outcome.mapError (.malformedIn path))
      (outcome.mapError (.malformedIn other)) := by
  cases outcome with
  | ok result => exact .ok result
  | error fault => exact .error (.malformed fault)

theorem mapM {Item : Type} {read readOther : Item → Except Error Result}
    (hread : ∀ item, Alike path other (read item) (readOther item)) (items : List Item) :
    Alike path other (items.mapM read) (items.mapM readOther) := by
  induction items with
  | nil => exact .ok []
  | cons item items ih =>
      rw [List.mapM_cons, List.mapM_cons]
      exact (hread item).bind fun first => ih.map (first :: ·)

theorem foldlM {Item : Type} {read readOther : Result → Item → Except Error Result}
    (hread : ∀ before item, Alike path other (read before item) (readOther before item))
    (items : List Item) (start : Result) :
    Alike path other (items.foldlM read start) (items.foldlM readOther start) := by
  induction items generalizing start with
  | nil => exact .ok start
  | cons item items ih =>
      rw [List.foldlM_cons, List.foldlM_cons]
      exact (hread start item).bind ih

theorem exists_fault {right : Except Error Result} {error : Error}
    (halike : Alike path other (.error error) right) :
    ∃ fault : Fault, error = fault.inFile path ∧ right = .error (fault.inFile other) := by
  cases halike with
  | error fault => exact ⟨fault, rfl, rfl⟩

end Alike

theorem expectString_alike (key : String) (value : Json) :
    Alike path other (expectString path key value) (expectString other key value) := by
  cases value with
  | string text => exact .ok text
  | _ => exact .error (.wrongType key .string)

theorem parseVersion_alike (text : String) :
    Alike path other (parseVersion path text) (parseVersion other text) :=
  .located _

theorem readPrereq_alike (entry : String × Json) :
    Alike path other (readPrereq path entry) (readPrereq other entry) := by
  obtain ⟨name, value⟩ := entry
  cases value with
  | string text => exact (parseVersion_alike text).bind fun _ => .located _
  | null => exact .located _
  | _ => exact .error (.invalidPrereqValue name)

theorem readText_alike (key : String) (value : Json) (record : String → Spec) :
    Alike path other (do return record (← expectString path key value))
      (do return record (← expectString other key value)) :=
  (expectString_alike key value).map record

theorem readVersion_alike (key : String) (value : Json) (record : Version → Spec) :
    Alike path other
      (do return record (← parseVersion path (← expectString path key value)))
      (do return record (← parseVersion other (← expectString other key value))) :=
  (expectString_alike key value).bind fun text => (parseVersion_alike text).map record

theorem readEntry_alike (spec : Spec) (entry : String × Json) :
    Alike path other (readEntry path spec entry) (readEntry other spec entry) := by
  unfold readEntry
  split
  case h_1 value => exact readText_alike "name" value _
  case h_2 value => exact readText_alike "nickname" value _
  case h_3 value => exact readVersion_alike "version" value _
  case h_4 value => exact readVersion_alike "major_version" value _
  case h_5 flag => exact .ok _
  case h_6 => exact .error (.wrongType "installed" .boolean)
  case h_7 asked => exact (Alike.mapM readPrereq_alike asked).map _
  case h_8 => exact .error (.wrongType "prerequisites" .hash)
  case h_9 key value _ _ _ _ _ _ _ _ => exact .error (.unknownKey key)

theorem toParcel_alike (included : Bool) (spec : Spec) :
    Alike path other (spec.toParcel path included) (spec.toParcel other included) := by
  unfold toParcel
  split
  · exact .error (.missingKey "name")
  · exact .error (.missingKey "version")
  · exact (Alike.located _).map _

/-- A spec is read in the same way under every path, up to the path in errors. -/
theorem parse_alike (text : String) (included : Bool) :
    Alike path other (parse path text included) (parse other text included) := by
  unfold parse
  split
  · exact .error .invalidJson
  · exact (Alike.foldlM readEntry_alike _ {}).bind (toParcel_alike included)
  · exact .error .notAHash

/-- What a spec is refused for does not depend on its file. -/
theorem exists_fault_of_parse {text : String} {included : Bool} {error : Error}
    (hparse : parse path text included = .error error) :
    ∃ fault : Fault, error = fault.inFile path ∧
      ∀ other, parse other text included = .error (fault.inFile other) := by
  have hrefused (other : String) : ∃ fault : Fault, error = fault.inFile path ∧
      parse other text included = .error (fault.inFile other) := by
    apply Alike.exists_fault
    rw [← hparse]
    exact parse_alike text included
  obtain ⟨fault, rfl, -⟩ := hrefused path
  refine ⟨fault, rfl, fun other => ?_⟩
  obtain ⟨again, hagain, hother⟩ := hrefused other
  rw [hother, Fault.inFile_injective path hagain]

end Alike

end Parcel.Spec

namespace Parcel

open Spec

theorem fromSpec_eq_error_iff {text : String} {source : Path} {included : Bool} {error : Error} :
    fromSpec text source included = .error error ↔
      parse source.text text included = .error error := by
  cases hparse : parse source.text text included <;>
    simp [fromSpec, hparse, bind, Except.bind, pure, Except.pure]

/-- A refused spec is a parse error whose message quotes the file.  It quotes it
in one place: of any other file the same text would be said to be wrong in the
same words. -/
theorem fromSpec_error_quotes_file {text : String} {source : Path} {included : Bool}
    {error : Error} (hread : fromSpec text source included = .error error) :
    error.kind = .parse ∧ ∃ frame : Frame, error.message = frame.around source.text ∧
      ∀ other : Path, ∃ moved, fromSpec text other included = .error moved ∧
        moved.kind = .parse ∧ moved.message = frame.around other.text := by
  obtain ⟨fault, rfl, hother⟩ := exists_fault_of_parse (fromSpec_eq_error_iff.mp hread)
  exact ⟨fault.kind_inFile _, fault.frame, fault.message_inFile _, fun other =>
    ⟨_, fromSpec_eq_error_iff.mpr (hother _), fault.kind_inFile _, fault.message_inFile _⟩⟩

/-- The prereq has no parcel name. -/
def numberedPrereq : String :=
  "\x7b\"name\": \"Ant\", \"version\": \"v1\", \"prerequisites\": \x7b\"Bee2\": null\x7d\x7d"

theorem numberedPrereq_quotes_file :
    let error := Error.malformedIn "ant.cfp" (.name .prereqName "Bee2")
    fromSpec numberedPrereq ⟨"ant.cfp"⟩ false = .error error ∧
      error.kind = .parse ∧ ∃ frame : Frame, error.message = frame.around "ant.cfp" ∧
        ∃ moved, fromSpec numberedPrereq ⟨"lib/ant.cfp"⟩ false = .error moved ∧
          moved.kind = .parse ∧ moved.message = frame.around "lib/ant.cfp" := by
  have hread : fromSpec numberedPrereq ⟨"ant.cfp"⟩ false =
      .error (.malformedIn "ant.cfp" (.name .prereqName "Bee2")) := rfl
  obtain ⟨hkind, frame, hframe, hother⟩ := fromSpec_error_quotes_file hread
  exact ⟨hread, hkind, frame, hframe, hother ⟨"lib/ant.cfp"⟩⟩

end Parcel

end Parcels
