import Parcels.Header.Scanner
import Parcels.Proofs.Header.Faults
import Parcels.Proofs.Json.Cursor

/-!
# Cursors in a text

Where a cursor stands follows from the characters that are left.  A scanning
routine takes it from one such place to another, or it stops with the fault that
a reader of characters has there.  A routine is put together from others as the
reader is from other readers.
-/

namespace Parcels.Header.Scanner

open Json.Cursor (bytesFrom part? part?_append)
open Text (bytesOf bytesOf_cons bytesOf_cons_of_lt length_bytesOf exists_bytes_of_le
  head?_bytesOf_eq_some_iff)

/-! ## Bytes of an end of a text -/

variable {text : String} {before input taken rest : List Char}

@[simp]
theorem byteLength_append (first second : List Char) :
    byteLength (first ++ second) = byteLength first + byteLength second := by
  simp [byteLength, String.ofList_append, String.utf8ByteSize_append]

@[simp]
theorem byteLength_toList (text : String) : byteLength text.toList = text.utf8ByteSize := by
  rw [byteLength, String.ofList_toList]

theorem byteLength_cons (char : Char) (rest : List Char) :
    byteLength (char :: rest) = char.utf8Size + byteLength rest := by
  have hsplit : char :: rest = [char] ++ rest := rfl
  rw [hsplit, byteLength_append]
  simp [byteLength]

theorem byteLength_cons_of_lt {char : Char} (hsmall : char.toNat < 128) (rest : List Char) :
    byteLength (char :: rest) = byteLength rest + 1 := by
  rw [byteLength_cons, Text.utf8Size_eq (Text.bytes_of_lt hsmall), Nat.add_comm]
  rfl

theorem byteLength_pos (hne : input ≠ []) : 0 < byteLength input := by
  have hlength := Text.length_le_length_bytesOf input
  have hpos := List.length_pos_iff.mpr hne
  rw [length_bytesOf] at hlength
  exact Nat.lt_of_lt_of_le hpos hlength

theorem size_eq (hsplit : text.toList = before ++ input) :
    text.utf8ByteSize = byteLength before + byteLength input := by
  rw [← byteLength_toList, hsplit, byteLength_append]

theorem text_eq (hsplit : text.toList = before ++ input) :
    text = String.ofList before ++ String.ofList input := by
  rw [← String.ofList_append, ← hsplit, String.ofList_toList]

theorem bytesFrom_eq (hsplit : text.toList = before ++ input) :
    bytesFrom text (byteLength before) = bytesOf input := by
  rw [text_eq hsplit, byteLength, ← String.size_toByteArray]
  simp [bytesFrom, String.toUTF8_eq_toByteArray, bytesOf, List.utf8Encode]

@[simp]
theorem lineFeeds_append (first second : List Char) :
    lineFeeds (first ++ second) = lineFeeds first + lineFeeds second :=
  List.count_append

theorem count_bytesOf (characters : List Char) :
    (bytesOf characters).count '\n' = lineFeeds characters := by
  induction characters with
  | nil => rfl
  | cons char rest ih =>
      have hcons : lineFeeds (char :: rest) =
          lineFeeds rest + if char == '\n' then 1 else 0 := List.count_cons
      rw [hcons, ← ih]
      by_cases hsmall : char.toNat < 128
      · rw [bytesOf_cons_of_lt hsmall, List.count_cons]
      · obtain ⟨first, others, hbytes, hlarge⟩ := exists_bytes_of_le (Nat.not_lt.mp hsmall)
        have hnone : (first :: others).count '\n' = 0 := by
          refine List.count_eq_zero_of_not_mem fun hmem => ?_
          exact absurd (hlarge '\n' hmem) (by decide)
        have hne : (char == '\n') = false := by
          refine beq_false_of_ne ?_
          rintro rfl
          exact hsmall (by decide)
        rw [bytesOf_cons, List.count_append, hbytes, hnone, hne]
        simp

/-! ## Places -/

/-- The cursor in front of the characters that are left. -/
def cursorAt (text : String) (input : List Char) : Cursor :=
  ⟨text.utf8ByteSize - byteLength input, lineAt text.toList input⟩

/-- The cursor is in the text, where a character starts or the text ends, and
its line is one more than the line feeds before it. -/
structure Standing (text : String) (cursor : Cursor) : Prop where
  inside : cursor.place ≤ text.utf8ByteSize
  boundary : String.Pos.Raw.IsValid text ⟨cursor.place⟩
  line_eq : cursor.line = 1 + ((bytesFrom text 0).take cursor.place).count '\n'

theorem place_cursorAt (hsplit : text.toList = before ++ input) :
    (cursorAt text input).place = byteLength before := by
  rw [cursorAt, size_eq hsplit, Nat.add_sub_cancel]

theorem bytesFrom_cursorAt (hinput : input <:+ text.toList) :
    bytesFrom text (cursorAt text input).place = bytesOf input := by
  obtain ⟨before, hsplit⟩ := hinput
  rw [place_cursorAt hsplit.symm, bytesFrom_eq hsplit.symm]

theorem line_cursorAt (hsplit : text.toList = before ++ input) :
    (cursorAt text input).line = 1 + lineFeeds before := by
  change lineAt text.toList input = _
  rw [lineAt, hsplit, lineFeeds_append, ← Nat.add_assoc, Nat.add_sub_cancel]

theorem standing_cursorAt (hinput : input <:+ text.toList) :
    Standing text (cursorAt text input) := by
  obtain ⟨before, hsplit⟩ := hinput
  have hplace := place_cursorAt hsplit.symm
  refine ⟨Nat.sub_le _ _, ?_, ?_⟩
  · rw [hplace, text_eq hsplit.symm]
    exact String.Pos.Raw.isValid_iff_exists_append.mpr ⟨_, _, rfl, rfl⟩
  · have hbytes : bytesFrom text 0 = bytesOf before ++ bytesOf input := by
      have hall : bytesFrom text (byteLength []) = bytesOf (before ++ input) :=
        bytesFrom_eq (by rw [hsplit, List.nil_append])
      simpa [byteLength, bytesOf] using hall
    rw [line_cursorAt hsplit.symm, hplace, hbytes, byteLength, ← length_bytesOf,
      List.take_left, count_bytesOf]

/-- The cursor stands before the characters that are left, and wherever it was
before, it stood well. -/
structure At (text : String) (input : List Char) (track : Track) : Prop where
  suffix : input <:+ text.toList
  cursor_eq : track.cursor = cursorAt text input
  passed : ∀ cursor ∈ track.passed, Standing text cursor

/-- The cursor stands well and always did. -/
def OnTrack (text : String) (track : Track) : Prop :=
  ∀ cursor ∈ track.cursor :: track.passed, Standing text cursor

theorem At.onTrack {track : Track} (hat : At text input track) : OnTrack text track := by
  refine List.forall_mem_cons.mpr ⟨?_, hat.passed⟩
  rw [hat.cursor_eq]
  exact standing_cursorAt hat.suffix

theorem at_start (text : String) : At text text.toList {} := by
  refine ⟨List.suffix_refl _, ?_, fun cursor hcursor => by cases hcursor⟩
  simp [cursorAt, lineAt]

theorem byteLength_le (hinput : input <:+ text.toList) : byteLength input ≤ text.utf8ByteSize := by
  obtain ⟨before, hsplit⟩ := hinput
  rw [size_eq hsplit.symm]
  exact Nat.le_add_left _ _

theorem byteLength_lt (hrest : rest <:+ text.toList) (hinput : input <:+ text.toList)
    (hshorter : rest.length < input.length) : byteLength rest < byteLength input := by
  obtain ⟨taken, rfl⟩ := List.suffix_of_suffix_length_le hrest hinput hshorter.le
  have htaken : 0 < byteLength taken := byteLength_pos (by rintro rfl; simp at hshorter)
  rw [byteLength_append]
  omega

/-- The cursor is further on if there are fewer characters left. -/
theorem At.place_lt {track after : Track} (hat : At text input track) (hafter : At text rest after)
    (hshorter : rest.length < input.length) : track.cursor.place < after.cursor.place := by
  have hfewer := byteLength_lt hafter.suffix hat.suffix hshorter
  have hinside := byteLength_le hat.suffix
  rw [hat.cursor_eq, hafter.cursor_eq]
  change text.utf8ByteSize - byteLength input < text.utf8ByteSize - byteLength rest
  omega

theorem place_add (taken : List Char) (hsuffix : taken ++ rest <:+ text.toList) :
    (cursorAt text (taken ++ rest)).place + byteLength taken = (cursorAt text rest).place := by
  have hinside := byteLength_le hsuffix
  rw [byteLength_append] at hinside
  simp only [cursorAt, byteLength_append]
  omega

theorem advance_of_at {track : Track} (hat : At text (taken ++ rest) track) :
    ∃ after, advance text (byteLength taken) track = .ok () after ∧ At text rest after := by
  obtain ⟨before, hsplit⟩ := hat.suffix
  have hsplit' : text.toList = (before ++ taken) ++ rest := by
    rw [List.append_assoc, hsplit]
  have hstart : track.cursor.place = byteLength before := by
    rw [hat.cursor_eq, place_cursorAt hsplit.symm]
  have hstop : min (byteLength before + byteLength taken) text.utf8ByteSize =
      byteLength before + byteLength taken := by
    rw [size_eq hsplit', byteLength_append]
    exact Nat.min_eq_left (Nat.le_add_right _ _)
  have hlines : ((bytesFrom text (byteLength before)).take (byteLength taken)).count '\n' =
      lineFeeds taken := by
    rw [bytesFrom_eq hsplit.symm, ← count_bytesOf taken, bytesOf, List.flatMap_append,
      List.map_append, ← bytesOf, ← bytesOf, byteLength, ← length_bytesOf, List.take_left]
  have hcursor : cursorAt text rest =
      ⟨byteLength before + byteLength taken, track.cursor.line + lineFeeds taken⟩ := by
    rw [hat.cursor_eq, line_cursorAt hsplit.symm, Nat.add_assoc, ← byteLength_append,
      ← lineFeeds_append, ← line_cursorAt hsplit', ← place_cursorAt hsplit']
  refine ⟨⟨cursorAt text rest, track.cursor :: track.passed⟩, ?_,
    (List.suffix_append taken rest).trans hat.suffix, rfl, hat.onTrack⟩
  simp only [advance, bind_get, hstart, hstop, Nat.add_sub_cancel_left, hlines, hcursor]
  rw [if_neg (by omega)]
  rfl

theorem takePart_of_suffix (hsuffix : taken ++ rest <:+ text.toList) (track : Track) :
    takePart text (cursorAt text (taken ++ rest)).place (cursorAt text rest).place track =
      .ok taken track := by
  obtain ⟨before, hsplit⟩ := hsuffix
  have hsplit' : text.toList = (before ++ taken) ++ rest := by
    rw [List.append_assoc, hsplit]
  have htext : text = String.ofList before ++ String.ofList taken ++ String.ofList rest := by
    rw [← String.ofList_append, text_eq hsplit']
  have hpart : part? text (byteLength before) (byteLength (before ++ taken)) =
      some (String.ofList taken) := by
    rw [byteLength, byteLength, String.ofList_append]
    conv => lhs; arg 1; rw [htext]
    exact part?_append _ _ _
  rw [place_cursorAt hsplit.symm, place_cursorAt hsplit', takePart, hpart]
  simp only [String.toList_ofList]
  rfl

/-! ## Routines and readers -/

section Follows

variable {Result Middle Read ReadFirst : Type} {outcome : Except Fault Read}
variable {Gives : Result → List Char → Except Fault Read → Prop}

/-- With these characters left, a routine goes on as a reader does.  Its result,
and what it leaves, is what the reader gives; it stops for the fault that the
reader has. -/
def Follows (text : String) (routine : Scanning Result) (outcome : Except Fault Read)
    (Gives : Result → List Char → Except Fault Read → Prop) (input : List Char) : Prop :=
  ∀ track, At text input track →
    Ends (routine track)
      (fun result after => ∃ rest, Gives result rest outcome ∧ At text rest after)
      (fun stop after => OnTrack text after ∧
        ∃ fault, outcome = .error fault ∧ stop = .syntaxError (fault.locate text.toList))

/-- The reader gives the result and what is left, put together. -/
def Returns (together : Result → List Char → Read) (result : Result) (rest : List Char)
    (outcome : Except Fault Read) : Prop :=
  outcome = .ok (together result rest)

abbrev Reads (text : String) (routine : Scanning Result)
    (outcome : Except Fault (Result × List Char)) (input : List Char) : Prop :=
  Follows text routine outcome (Returns Prod.mk) input

abbrev Skips (text : String) (routine : Scanning Unit) (outcome : Except Fault (List Char))
    (input : List Char) : Prop :=
  Follows text routine outcome (Returns fun _ rest => rest) input

namespace Follows

theorem pure {result : Result} (hgives : Gives result input outcome) :
    Follows text (Pure.pure result) outcome Gives input :=
  fun _ hat => ⟨input, hgives, hat⟩

theorem failAt {start : List Char} {cause : Cause}
    (hfault : outcome = .error ⟨start, cause⟩) :
    Follows text (failAt (lineAt text.toList start) cause) outcome Gives input :=
  fun _ hat => ⟨hat.onTrack, ⟨start, cause⟩, hfault, rfl⟩

section Bind

variable {first : Scanning Middle} {second : Middle → Scanning Result}
  {firstOutcome : Except Fault ReadFirst} {together : Middle → List Char → ReadFirst}

theorem andThen (hfirst : Follows text first firstOutcome (Returns together) input)
    (hfault : ∀ fault, firstOutcome = .error fault → outcome = .error fault)
    (hsecond : ∀ middle rest, firstOutcome = .ok (together middle rest) →
      Follows text (second middle) outcome Gives rest) :
    Follows text (first >>= second) outcome Gives input := by
  intro track hat
  refine Ends.bind ((hfirst track hat).mono ?_ ?_)
  · rintro middle between ⟨rest, hread, hbetween⟩
    exact hsecond middle rest hread between hbetween
  · rintro stop after ⟨honTrack, fault, hread, hstop⟩
    exact ⟨honTrack, fault, hfault fault hread, hstop⟩

theorem bind {next : ReadFirst → Except Fault Read}
    (hfirst : Follows text first firstOutcome (Returns together) input)
    (hsecond : ∀ middle rest, firstOutcome = .ok (together middle rest) →
      Follows text (second middle) (next (together middle rest)) Gives rest) :
    Follows text (first >>= second) (firstOutcome >>= next) Gives input := by
  refine hfirst.andThen (fun fault hfault => ?_) fun middle rest hread => ?_
  · rw [hfault]
    rfl
  · rw [hread]
    exact hsecond middle rest hread

theorem given {read : ReadFirst} (hfirst : Follows text first (.ok read) (Returns together) input)
    (hsecond : ∀ middle rest, read = together middle rest →
      Follows text (second middle) outcome Gives rest) :
    Follows text (first >>= second) outcome Gives input :=
  hfirst.andThen nofun fun middle rest hread => hsecond middle rest (Except.ok.inj hread)

end Bind

/-- A first step that cannot fail is no step of the reader. -/
theorem step {first : Scanning Middle} {second : Middle → Scanning Result} {middle : Middle}
    (hfirst : ∀ track, At text input track →
      ∃ after, first track = .ok middle after ∧ At text rest after)
    (hsecond : Follows text (second middle) outcome Gives rest) :
    Follows text (first >>= second) outcome Gives input := by
  intro track hat
  obtain ⟨after, hrun, hafter⟩ := hfirst track hat
  exact Ends.bind_ok hrun (hsecond after hafter)

theorem line {second : Nat → Scanning Result}
    (hsecond : Follows text (second (lineAt text.toList input)) outcome Gives input) :
    Follows text (line >>= second) outcome Gives input := by
  refine step (fun track hat => ⟨track, ?_, hat⟩) hsecond
  change EStateM.Result.ok track.cursor.line track = _
  rw [hat.cursor_eq]
  rfl

theorem place {second : Nat → Scanning Result}
    (hsecond : input <:+ text.toList →
      Follows text (second (cursorAt text input).place) outcome Gives input) :
    Follows text (place >>= second) outcome Gives input := by
  intro track hat
  have hrun : Scanner.place track = .ok (cursorAt text input).place track := by
    change EStateM.Result.ok track.cursor.place track = _
    rw [hat.cursor_eq]
  exact Ends.bind_ok hrun (hsecond hat.suffix track hat)

theorem peek {second : Option Char → Scanning Result}
    (hsecond : Follows text (second (bytesOf input).head?) outcome Gives input) :
    Follows text (peek text >>= second) outcome Gives input := by
  refine step (fun track hat => ⟨track, ?_, hat⟩) hsecond
  change EStateM.Result.ok (bytesFrom text track.cursor.place).head? track = _
  rw [hat.cursor_eq, bytesFrom_cursorAt hat.suffix]

theorem take {second : List Char → Scanning Result} (hsuffix : taken ++ rest <:+ text.toList)
    {start stop : Nat} (hstart : start = (cursorAt text (taken ++ rest)).place)
    (hstop : stop = (cursorAt text rest).place)
    (hsecond : Follows text (second taken) outcome Gives input) :
    Follows text (takePart text start stop >>= second) outcome Gives input := by
  rw [hstart, hstop]
  exact step (fun track hat => ⟨track, takePart_of_suffix hsuffix track, hat⟩) hsecond

theorem ahead {second : List Char → Scanning Result}
    (hsecond : Follows text (second input) outcome Gives input) :
    Follows text (Scanner.rest text >>= second) outcome Gives input := by
  refine step (fun track hat => ⟨track, ?_, hat⟩) hsecond
  have htake : takePart text (cursorAt text (input ++ [])).place (cursorAt text []).place track =
      .ok input track := takePart_of_suffix (by rw [List.append_nil]; exact hat.suffix) track
  have hend : (cursorAt text []).place = text.utf8ByteSize := by simp [cursorAt, byteLength]
  rw [List.append_nil, ← hat.cursor_eq, hend] at htake
  exact htake

theorem advance (taken : List Char) {second : Unit → Scanning Result} {count : Nat}
    (hinput : input = taken ++ rest)
    (hcount : count = byteLength taken)
    (hsecond : Follows text (second ()) outcome Gives rest) :
    Follows text (advance text count >>= second) outcome Gives input := by
  subst hinput hcount
  exact step (fun track hat => advance_of_at hat) hsecond

theorem advanceLast (taken : List Char) {together : Unit → List Char → Read} {count : Nat}
    (hinput : input = taken ++ rest) (hcount : count = byteLength taken)
    (houtcome : outcome = .ok (together () rest)) :
    Follows text (Scanner.advance text count) outcome (Returns together) input := by
  subst hinput hcount
  intro track hat
  obtain ⟨after, hrun, hafter⟩ := advance_of_at hat
  rw [hrun]
  exact ⟨rest, houtcome, hafter⟩

end Follows

/-! ## Loops -/

variable {Value : Type} {reader : Value → List Char → Except Fault Read}
  {together : Result → List Char → Read} {round : Value → Scanning (Round Value Result)}

/-- After a round the reader is done, or it goes on with fewer characters left. -/
def Goes (reader : Value → List Char → Except Fault Read) (together : Result → List Char → Read)
    (input : List Char) : Round Value Result → List Char → Except Fault Read → Prop
  | .done result, rest, outcome => outcome = .ok (together result rest)
  | .again value, rest, outcome => outcome = reader value rest ∧ rest.length < input.length

theorem rounds_follows
    (hround : ∀ value input,
      Follows text (round value) (reader value input) (Goes reader together input) input)
    {bound : Nat} (value : Value) (hbound : byteLength input < bound) :
    Follows text (rounds round bound value) (reader value input) (Returns together) input := by
  induction bound generalizing value input with
  | zero => exact absurd hbound (Nat.not_lt_zero _)
  | succ bound ih =>
      intro track hat
      refine Ends.bind_ok rfl (Ends.bind ((hround value input track hat).imp ?_))
      rintro (next | result) after ⟨rest, hgoes, hafter⟩
      · obtain ⟨hreader, hshorter⟩ := hgoes
        have hfewer := byteLength_lt hafter.suffix hat.suffix hshorter
        refine Ends.bind_ok rfl ?_
        rw [if_pos (hat.place_lt hafter hshorter), hreader]
        exact ih next (by omega) after hafter
      · exact ⟨rest, hgoes, hafter⟩

theorem loop_follows
    (hround : ∀ value input,
      Follows text (round value) (reader value input) (Goes reader together input) input)
    (value : Value) (input : List Char) :
    Follows text (loop text round value) (reader value input) (Returns together) input := by
  intro track hat
  exact rounds_follows hround value (Nat.lt_succ_of_le (byteLength_le hat.suffix)) track hat

end Follows

end Parcels.Header.Scanner
