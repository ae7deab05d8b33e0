import Mathlib.Data.List.Forall2
import Mathlib.Data.List.Induction
import Parcels.Parcel.Spec
import Parcels.Proofs.Action
import Parcels.Proofs.Json.Reading
import Parcels.Proofs.Parcel

/-!
# Which specs are accepted

Every entry of a spec must be fit, whether or not a later entry of its key
replaces it, but only the last name and the last nickname need be names of
parcels.  The parcel is what the last entry of each key says.
-/

namespace Parcels

/-! ## The last entry of a key -/

namespace Json

variable {entries : List (String × Json)} {key : String}

theorem lastValue?_concat (entries : List (String × Json)) (entry : String × Json)
    (key : String) :
    lastValue? (entries ++ [entry]) key =
      if key = entry.1 then some entry.2 else lastValue? entries key := by
  rw [lastValue?, List.reverse_append, List.reverse_singleton, List.singleton_append,
    List.lookup_cons]
  by_cases hkey : key = entry.1
  · simp [hkey]
  · simp [hkey, beq_false_of_ne hkey, lastValue?]

theorem exists_lastValue?_iff :
    (∃ value, lastValue? entries key = some value) ↔ ∃ value, (key, value) ∈ entries := by
  rw [← Option.isSome_iff_exists, lastValue?, List.lookup_isSome_iff]
  simp

end Json

/-! ## What values say -/

namespace Parcel.Spec

def TextValue (value : Json) (text : String) : Prop :=
  value = .string text

def VersionValue (value : Json) (version : Version) : Prop :=
  ∃ text, value = .string text ∧ Version.parse text = .ok version

def FlagValue (value : Json) (flag : Bool) : Prop :=
  value = .boolean flag

/-- What an entry under `prerequisites` asks for. -/
inductive AsksFor : String × Json → Prereq → Prop where
  | atLeast {name : String} {value : Json} {version : Version}
      (letters : Name.Letters name) (least : VersionValue value version) :
      AsksFor (name, value) ⟨name, some version⟩
  | anyVersion {name : String} (letters : Name.Letters name) :
      AsksFor (name, .null) ⟨name, none⟩

/-- The prereqs stand in the order of the entries. -/
def PrereqsValue (value : Json) (prereqs : List Prereq) : Prop :=
  ∃ entries, value = .hash entries ∧ List.Forall₂ AsksFor entries prereqs

/-- The keys of a spec, each with the values it may have. -/
inductive Fits : String × Json → Prop where
  | name {value : Json} {text : String} (valid : TextValue value text) :
      Fits ("name", value)
  | nickname {value : Json} {text : String} (valid : TextValue value text) :
      Fits ("nickname", value)
  | version {value : Json} {version : Version} (valid : VersionValue value version) :
      Fits ("version", value)
  | majorVersion {value : Json} {version : Version} (valid : VersionValue value version) :
      Fits ("major_version", value)
  | installed {value : Json} {flag : Bool} (valid : FlagValue value flag) :
      Fits ("installed", value)
  | prerequisites {value : Json} {prereqs : List Prereq} (valid : PrereqsValue value prereqs) :
      Fits ("prerequisites", value)

/-- The last entry of the key says this or, if there is none, it is the
default. -/
def LastSays {Said : Type} (Value : Json → Said → Prop) (entries : List (String × Json))
    (key : String) (default : Option Said) (said : Said) : Prop :=
  match Json.lastValue? entries key with
  | some value => Value value said
  | none => default = some said

/-- The entries make a spec. -/
structure Acceptable (entries : List (String × Json)) : Prop where
  fits : ∀ entry ∈ entries, Fits entry
  nameOccurs : ∃ value, ("name", value) ∈ entries
  versionOccurs : ∃ value, ("version", value) ∈ entries
  lastName : ∀ text, Json.lastValue? entries "name" = some (.string text) → Name.Letters text
  lastNickname : ∀ text, Json.lastValue? entries "nickname" = some (.string text) →
    Name.Letters text

/-- The parcel is what the last entries say. -/
structure Describes (entries : List (String × Json)) (included : Bool) (parcel : Parcel) :
    Prop where
  name : LastSays TextValue entries "name" none parcel.name
  nickname : LastSays TextValue entries "nickname" (some parcel.name) parcel.nickname
  version : LastSays VersionValue entries "version" none parcel.version
  majorVersion : LastSays VersionValue entries "major_version" (some .zero) parcel.majorVersion
  included : parcel.included = included
  installed : ∃ flag, LastSays FlagValue entries "installed" (some true) flag ∧
    parcel.installed = (flag && !parcel.included)
  prereqs : LastSays PrereqsValue entries "prerequisites" (some []) parcel.prereqs
  source : parcel.source = none

/-! ## One value -/

variable {path : String}

theorem expectString_eq_ok_iff {key text : String} {value : Json} :
    expectString path key value = .ok text ↔ TextValue value text := by
  cases value <;> simp [expectString, TextValue]

theorem parseVersion_eq_ok_iff {text : String} {version : Version} :
    parseVersion path text = .ok version ↔ Version.parse text = .ok version :=
  mapError_eq_ok_iff

theorem readText_eq_ok_iff {key : String} {value : Json} {record : String → Spec} {next : Spec} :
    (do let text ← expectString path key value; return record text) = .ok next ↔
      ∃ text, TextValue value text ∧ next = record text := by
  constructor
  · intro hread
    obtain ⟨text, htext, hdone⟩ := ok_of_bind hread
    cases hdone
    exact ⟨text, expectString_eq_ok_iff.mp htext, rfl⟩
  · rintro ⟨text, htext, rfl⟩
    rw [expectString_eq_ok_iff.mpr htext]
    rfl

theorem readVersion_eq_ok_iff {key : String} {value : Json} {record : Version → Spec}
    {next : Spec} :
    (do let text ← expectString path key value
        let version ← parseVersion path text
        return record version) = .ok next ↔
      ∃ version, VersionValue value version ∧ next = record version := by
  constructor
  · intro hread
    obtain ⟨text, htext, hrest⟩ := ok_of_bind hread
    obtain ⟨version, hversion, hdone⟩ := ok_of_bind hrest
    cases hdone
    exact ⟨version, ⟨text, expectString_eq_ok_iff.mp htext, parseVersion_eq_ok_iff.mp hversion⟩,
      rfl⟩
  · rintro ⟨version, ⟨text, rfl, hversion⟩, rfl⟩
    simp only [expectString, parseVersion_eq_ok_iff.mpr hversion, bind, Except.bind]
    rfl

theorem readPrereq_eq_ok_iff {entry : String × Json} {prereq : Prereq} :
    readPrereq path entry = .ok prereq ↔ AsksFor entry prereq := by
  constructor
  · intro hread
    unfold readPrereq at hread
    split at hread
    · obtain ⟨version, hversion, hmake⟩ := ok_of_bind hread
      obtain ⟨hletters, rfl⟩ := Prereq.make_eq_ok_iff.mp (ok_of_mapError hmake)
      exact .atLeast hletters ⟨_, rfl, parseVersion_eq_ok_iff.mp hversion⟩
    · obtain ⟨hletters, rfl⟩ := Prereq.make_eq_ok_iff.mp (ok_of_mapError hread)
      exact .anyVersion hletters
    · cases hread
  · intro hasks
    cases hasks with
    | atLeast hletters hleast =>
        obtain ⟨text, rfl, hversion⟩ := hleast
        simp only [readPrereq, parseVersion_eq_ok_iff.mpr hversion, bind, Except.bind]
        exact mapError_eq_ok_iff.mpr (Prereq.make_eq_ok_iff.mpr ⟨hletters, rfl⟩)
    | anyVersion hletters =>
        exact mapError_eq_ok_iff.mpr (Prereq.make_eq_ok_iff.mpr ⟨hletters, rfl⟩)

theorem mapM_readPrereq_eq_ok_iff {entries : List (String × Json)} {prereqs : List Prereq} :
    entries.mapM (readPrereq path) = .ok prereqs ↔ List.Forall₂ AsksFor entries prereqs := by
  induction entries generalizing prereqs with
  | nil => simp [pure, Except.pure, eq_comm]
  | cons entry entries ih =>
      rw [List.mapM_cons]
      constructor
      · intro hread
        obtain ⟨prereq, hprereq, hrest⟩ := ok_of_bind hread
        obtain ⟨others, hothers, hdone⟩ := ok_of_bind hrest
        cases hdone
        exact .cons (readPrereq_eq_ok_iff.mp hprereq) (ih.mp hothers)
      · intro hasks
        cases hasks with
        | cons hentry hothers =>
            rw [readPrereq_eq_ok_iff.mpr hentry, ih.mpr hothers]
            rfl

/-! ## Entries one after the other -/

section LastSays

variable {Said : Type} {Value : Json → Said → Prop} {entries : List (String × Json)}
  {key : String} {default : Option Said} {said : Said}

theorem lastSays_concat (entry : String × Json) :
    LastSays Value (entries ++ [entry]) key default said ↔
      if key = entry.1 then Value entry.2 said else LastSays Value entries key default said := by
  rw [LastSays, Json.lastValue?_concat]
  by_cases hkey : key = entry.1
  · rw [if_pos hkey, if_pos hkey]
  · rw [if_neg hkey, if_neg hkey, LastSays]

/-- Something has been found, and it is what the value says. -/
def Found (Value : Json → Said → Prop) (value : Json) (found : Option Said) : Prop :=
  ∃ said, found = some said ∧ Value value said

theorem LastSays.of_found {found : Option Said}
    (hlast : LastSays (Found Value) entries key (some none) found)
    (hsaid : found.or default = some said) : LastSays Value entries key default said := by
  unfold LastSays at hlast ⊢
  split
  · next value hvalue =>
    rw [hvalue] at hlast
    obtain ⟨first, rfl, hfirst⟩ := hlast
    obtain rfl : first = said := by simpa using hsaid
    exact hfirst
  · next hnone =>
    rw [hnone] at hlast
    cases hlast
    exact hsaid

theorem lastSays_none_iff :
    LastSays Value entries key none said ↔
      ∃ value, Json.lastValue? entries key = some value ∧ Value value said := by
  unfold LastSays
  split <;> simp [*]

theorem exists_of_occurs {found : Option Said}
    (hlast : LastSays (Found Value) entries key (some none) found)
    (hoccurs : ∃ value, (key, value) ∈ entries) :
    ∃ said, found = some said ∧ LastSays Value entries key none said := by
  obtain ⟨value, hvalue⟩ := Json.exists_lastValue?_iff.mpr hoccurs
  have hfound := hlast
  rw [LastSays, hvalue] at hfound
  obtain ⟨said, rfl, -⟩ := hfound
  exact ⟨said, rfl, hlast.of_found rfl⟩

/-- A key whose values say one thing each has one last thing that is said. -/
theorem LastSays.unique (hvalue : Relator.RightUnique Value) {said' : Said}
    (hlast : LastSays Value entries key default said)
    (hlast' : LastSays Value entries key default said') : said = said' := by
  unfold LastSays at hlast hlast'
  split at hlast
  · next heq =>
    rw [heq] at hlast'
    exact hvalue hlast hlast'
  · next heq =>
    rw [heq] at hlast'
    exact Option.some.inj (hlast.symm.trans hlast')

end LastSays

/-- What has been read is what the last entries say. -/
structure Records (entries : List (String × Json)) (spec : Spec) : Prop where
  name : LastSays (Found TextValue) entries "name" (some none) spec.name
  nickname : LastSays (Found TextValue) entries "nickname" (some none) spec.nickname
  version : LastSays (Found VersionValue) entries "version" (some none) spec.version
  majorVersion :
    LastSays (Found VersionValue) entries "major_version" (some none) spec.majorVersion
  installed : LastSays FlagValue entries "installed" (some true) spec.installed
  prereqs : LastSays PrereqsValue entries "prerequisites" (some []) spec.prereqs

theorem records_nil : Records [] {} :=
  ⟨rfl, rfl, rfl, rfl, rfl, rfl⟩

theorem readEntry_keeps {spec next : Spec} {entry : String × Json}
    (hread : readEntry path spec entry = .ok next) :
    Fits entry ∧ ∀ entries, Records entries spec → Records (entries ++ [entry]) next := by
  unfold readEntry at hread
  split at hread
  case h_1 value =>
    obtain ⟨text, hvalue, rfl⟩ := readText_eq_ok_iff.mp hread
    refine ⟨.name hvalue, fun entries ⟨_, hnickname, hversion, hmajor, hinstalled, hprereqs⟩ => ?_⟩
    have hname : Found TextValue value (some text) := ⟨text, rfl, hvalue⟩
    constructor <;> simp [lastSays_concat, *]
  case h_2 value =>
    obtain ⟨text, hvalue, rfl⟩ := readText_eq_ok_iff.mp hread
    refine ⟨.nickname hvalue, fun entries ⟨hname, _, hversion, hmajor, hinstalled, hprereqs⟩ => ?_⟩
    have hnickname : Found TextValue value (some text) := ⟨text, rfl, hvalue⟩
    constructor <;> simp [lastSays_concat, *]
  case h_3 value =>
    obtain ⟨version, hvalue, rfl⟩ := readVersion_eq_ok_iff.mp hread
    refine ⟨.version hvalue, fun entries ⟨hname, hnickname, _, hmajor, hinstalled, hprereqs⟩ => ?_⟩
    have hversion : Found VersionValue value (some version) := ⟨version, rfl, hvalue⟩
    constructor <;> simp [lastSays_concat, *]
  case h_4 value =>
    obtain ⟨version, hvalue, rfl⟩ := readVersion_eq_ok_iff.mp hread
    refine ⟨.majorVersion hvalue,
      fun entries ⟨hname, hnickname, hversion, _, hinstalled, hprereqs⟩ => ?_⟩
    have hmajor : Found VersionValue value (some version) := ⟨version, rfl, hvalue⟩
    constructor <;> simp [lastSays_concat, *]
  case h_5 flag =>
    cases hread
    have hinstalled : FlagValue (.boolean flag) flag := rfl
    refine ⟨.installed hinstalled,
      fun entries ⟨hname, hnickname, hversion, hmajor, _, hprereqs⟩ => ?_⟩
    constructor <;> simp [lastSays_concat, *]
  case h_7 asked =>
    obtain ⟨prereqs, hasked, hdone⟩ := ok_of_bind hread
    cases hdone
    have hprereqs : PrereqsValue (.hash asked) prereqs :=
      ⟨asked, rfl, mapM_readPrereq_eq_ok_iff.mp hasked⟩
    refine ⟨.prerequisites hprereqs,
      fun entries ⟨hname, hnickname, hversion, hmajor, hinstalled, _⟩ => ?_⟩
    constructor <;> simp [lastSays_concat, *]
  all_goals cases hread

theorem exists_of_fits {entry : String × Json} (hfits : Fits entry) (spec : Spec) :
    ∃ next, readEntry path spec entry = .ok next := by
  cases hfits with
  | name hvalue => exact ⟨_, readText_eq_ok_iff.mpr ⟨_, hvalue, rfl⟩⟩
  | nickname hvalue => exact ⟨_, readText_eq_ok_iff.mpr ⟨_, hvalue, rfl⟩⟩
  | version hvalue => exact ⟨_, readVersion_eq_ok_iff.mpr ⟨_, hvalue, rfl⟩⟩
  | majorVersion hvalue => exact ⟨_, readVersion_eq_ok_iff.mpr ⟨_, hvalue, rfl⟩⟩
  | @installed value flag hvalue =>
      obtain rfl : value = .boolean flag := hvalue
      exact ⟨_, rfl⟩
  | @prerequisites value prereqs hvalue =>
      obtain ⟨asked, rfl, hasked⟩ := hvalue
      refine ⟨{ spec with prereqs := prereqs }, ?_⟩
      simp only [readEntry, mapM_readPrereq_eq_ok_iff.mpr hasked, bind, Except.bind]
      rfl

theorem records_of_readEntries {entries : List (String × Json)} {spec : Spec}
    (hread : entries.foldlM (readEntry path) {} = .ok spec) :
    (∀ entry ∈ entries, Fits entry) ∧ Records entries spec := by
  -- The last entry counts, so the entries are taken off from the end.
  induction entries using List.reverseRecOn generalizing spec with
  | nil =>
      cases hread
      exact ⟨List.forall_mem_nil _, records_nil⟩
  | append_singleton entries entry ih =>
      rw [List.foldlM_append] at hread
      obtain ⟨before, hbefore, hentry⟩ := ok_of_bind hread
      rw [List.foldlM_cons] at hentry
      obtain ⟨after, hafter, hdone⟩ := ok_of_bind hentry
      cases hdone
      obtain ⟨hfits, hrecords⟩ := ih hbefore
      obtain ⟨hfit, hkeeps⟩ := readEntry_keeps hafter
      refine ⟨List.forall_mem_append.mpr ⟨hfits, ?_⟩, hkeeps entries hrecords⟩
      exact List.forall_mem_singleton.mpr hfit

theorem exists_of_allFit {entries : List (String × Json)}
    (hfits : ∀ entry ∈ entries, Fits entry) (spec : Spec) :
    ∃ last, entries.foldlM (readEntry path) spec = .ok last := by
  induction entries generalizing spec with
  | nil => exact ⟨spec, rfl⟩
  | cons entry entries ih =>
      obtain ⟨hfit, hothers⟩ := List.forall_mem_cons.mp hfits
      obtain ⟨next, hnext⟩ : ∃ next, readEntry path spec entry = .ok next :=
        exists_of_fits hfit spec
      rw [List.foldlM_cons, hnext]
      exact ih hothers next

/-! ## Values say one thing -/

theorem rightUnique_textValue : Relator.RightUnique TextValue := by
  rintro _ text text' rfl htext
  exact Json.string.inj htext

theorem rightUnique_versionValue : Relator.RightUnique VersionValue := by
  rintro _ version version' ⟨text, rfl, hversion⟩ ⟨_, htext, hversion'⟩
  cases htext
  exact Except.ok.inj (hversion.symm.trans hversion')

theorem rightUnique_flagValue : Relator.RightUnique FlagValue := by
  rintro _ flag flag' rfl hflag
  exact Json.boolean.inj hflag

theorem rightUnique_asksFor : Relator.RightUnique AsksFor := by
  intro entry prereq prereq' hasks hasks'
  have hread : readPrereq "" entry = .ok prereq := readPrereq_eq_ok_iff.mpr hasks
  have hread' : readPrereq "" entry = .ok prereq' := readPrereq_eq_ok_iff.mpr hasks'
  exact Except.ok.inj (hread.symm.trans hread')

theorem rightUnique_prereqsValue : Relator.RightUnique PrereqsValue := by
  rintro _ prereqs prereqs' ⟨entries, rfl, hasked⟩ ⟨_, hentries, hasked'⟩
  cases hentries
  exact rightUnique_asksFor.forall₂ hasked hasked'

/-- Entries describe one parcel at most. -/
theorem Describes.unique {entries : List (String × Json)} {included : Bool}
    {parcel parcel' : Parcel} (hparcel : Describes entries included parcel)
    (hparcel' : Describes entries included parcel') : parcel = parcel' := by
  have hname := hparcel.name.unique rightUnique_textValue hparcel'.name
  have hnickname := hparcel.nickname
  rw [hname] at hnickname
  obtain ⟨flag, hflag, hinstalled⟩ := hparcel.installed
  obtain ⟨flag', hflag', hinstalled'⟩ := hparcel'.installed
  obtain rfl := hflag.unique rightUnique_flagValue hflag'
  have hincluded := hparcel.included.trans hparcel'.included.symm
  rw [hincluded] at hinstalled
  cases parcel
  cases parcel'
  congr 1
  · exact hnickname.unique rightUnique_textValue hparcel'.nickname
  · exact hparcel.version.unique rightUnique_versionValue hparcel'.version
  · exact hparcel.majorVersion.unique rightUnique_versionValue hparcel'.majorVersion
  · exact hinstalled.trans hinstalled'.symm
  · exact hparcel.prereqs.unique rightUnique_prereqsValue hparcel'.prereqs
  · exact hparcel.source.trans hparcel'.source.symm

/-! ## Whole specs -/

theorem toParcel_eq_ok_iff {spec : Spec} {included : Bool} {parcel : Parcel} :
    spec.toParcel path included = .ok parcel ↔
      ∃ name version, spec.name = some name ∧ spec.version = some version ∧
        Name.Letters name ∧ Name.Letters (spec.nickname.getD name) ∧
        parcel =
          { name := name
            nickname := spec.nickname.getD name
            version := version
            majorVersion := spec.majorVersion.getD .zero
            included := included
            installed := spec.installed && !included
            prereqs := spec.prereqs } := by
  constructor
  · intro hparcel
    unfold toParcel at hparcel
    split at hparcel
    · cases hparcel
    · cases hparcel
    · next name version hname hversion =>
      obtain ⟨made, hmake, hdone⟩ := ok_of_bind hparcel
      obtain ⟨hletters, hnickname, rfl⟩ := make_eq_ok_iff.mp (ok_of_mapError hmake)
      cases hdone
      exact ⟨name, version, hname, hversion, hletters, hnickname, rfl⟩
  · rintro ⟨name, version, hname, hversion, hletters, hnickname, rfl⟩
    have hmake : make name spec.nickname (some version) included = .ok _ :=
      make_eq_ok_iff.mpr ⟨hletters, hnickname, rfl⟩
    simp only [toParcel, hname, hversion, mapError_eq_ok_iff.mpr hmake, bind, Except.bind]
    rfl

theorem describes_of_toParcel {entries : List (String × Json)} {spec : Spec} {included : Bool}
    {parcel : Parcel} (hrecords : Records entries spec)
    (hparcel : spec.toParcel path included = .ok parcel) :
    Describes entries included parcel ∧ Name.Letters parcel.name ∧
      Name.Letters parcel.nickname := by
  obtain ⟨name, version, hname, hversion, hletters, hnickname, rfl⟩ :=
    toParcel_eq_ok_iff.mp hparcel
  refine ⟨?_, hletters, hnickname⟩
  exact
    { name := hrecords.name.of_found (by rw [hname]; rfl)
      nickname := hrecords.nickname.of_found Option.or_some
      version := hrecords.version.of_found (by rw [hversion]; rfl)
      majorVersion := hrecords.majorVersion.of_found Option.or_some
      included := rfl
      installed := ⟨spec.installed, hrecords.installed, rfl⟩
      prereqs := hrecords.prereqs
      source := rfl }

theorem Describes.acceptable {entries : List (String × Json)} {included : Bool}
    {parcel : Parcel} (hdescribes : Describes entries included parcel)
    (hfits : ∀ entry ∈ entries, Fits entry) (hname : Name.Letters parcel.name)
    (hnickname : Name.Letters parcel.nickname) : Acceptable entries := by
  obtain ⟨nameValue, hnameValue, hnameSaid⟩ := lastSays_none_iff.mp hdescribes.name
  obtain ⟨versionValue, hversionValue, -⟩ := lastSays_none_iff.mp hdescribes.version
  refine ⟨hfits, Json.exists_lastValue?_iff.mp ⟨_, hnameValue⟩,
    Json.exists_lastValue?_iff.mp ⟨_, hversionValue⟩, fun text htext => ?_, fun text htext => ?_⟩
  · cases hnameValue.symm.trans htext
    cases hnameSaid
    exact hname
  · have hsaid := hdescribes.nickname
    rw [LastSays, htext] at hsaid
    cases hsaid
    exact hnickname

theorem Acceptable.exists_toParcel {entries : List (String × Json)} {spec : Spec}
    (hacceptable : Acceptable entries) (hrecords : Records entries spec) (included : Bool) :
    ∃ parcel, spec.toParcel path included = .ok parcel := by
  obtain ⟨name, hname, hnameSaid⟩ := exists_of_occurs hrecords.name hacceptable.nameOccurs
  obtain ⟨version, hversion, -⟩ := exists_of_occurs hrecords.version hacceptable.versionOccurs
  have hletters : Name.Letters name := by
    obtain ⟨_, hlast, rfl⟩ := lastSays_none_iff.mp hnameSaid
    exact hacceptable.lastName name hlast
  have hnickname : Name.Letters (spec.nickname.getD name) := by
    cases hfound : spec.nickname with
    | none => exact hletters
    | some nickname =>
        have hsaid := hrecords.nickname
        rw [hfound] at hsaid
        obtain ⟨_, hlast, rfl⟩ := lastSays_none_iff.mp (hsaid.of_found rfl)
        exact hacceptable.lastNickname nickname hlast
  exact ⟨_, toParcel_eq_ok_iff.mpr ⟨name, version, hname, hversion, hletters, hnickname, rfl⟩⟩

/-- A document of acceptable entries gives a parcel. -/
theorem exists_of_acceptable {text : String} {entries : List (String × Json)}
    (hdocument : Json.Document text.toList (.hash entries)) (hacceptable : Acceptable entries)
    (included : Bool) :
    ∃ parcel, parse path text included = .ok parcel ∧ Describes entries included parcel := by
  obtain ⟨spec, hspec⟩ : ∃ spec, entries.foldlM (readEntry path) {} = .ok spec :=
    exists_of_allFit hacceptable.fits {}
  have hrecords := (records_of_readEntries hspec).2
  obtain ⟨parcel, hparcel⟩ : ∃ parcel, spec.toParcel path included = .ok parcel :=
    hacceptable.exists_toParcel hrecords included
  refine ⟨parcel, ?_, (describes_of_toParcel hrecords hparcel).1⟩
  simp only [parse, Json.parse?_eq_some_iff.mpr hdocument, hspec, bind, Except.bind, hparcel]

/-- A text that gives a parcel is a document of acceptable entries. -/
theorem acceptable_of_parse {text : String} {included : Bool} {parcel : Parcel}
    (hparse : parse path text included = .ok parcel) :
    ∃ entries, Json.Document text.toList (.hash entries) ∧ Acceptable entries ∧
      Describes entries included parcel := by
  unfold parse at hparse
  split at hparse
  · cases hparse
  · next entries hdocument =>
    obtain ⟨spec, hspec, hparcel⟩ := ok_of_bind hparse
    obtain ⟨hfits, hrecords⟩ := records_of_readEntries hspec
    obtain ⟨hdescribes, hname, hnickname⟩ := describes_of_toParcel hrecords hparcel
    exact ⟨entries, Json.parse?_eq_some_iff.mp hdocument,
      hdescribes.acceptable hfits hname hnickname, hdescribes⟩
  · cases hparse

theorem namesParcels_of_asked {entries : List (String × Json)} {prereqs : List Prereq}
    (hasked : List.Forall₂ AsksFor entries prereqs) : NamesParcels prereqs := by
  induction hasked with
  | nil => exact List.forall_mem_nil _
  | cons hasks _ ih =>
      refine List.forall_mem_cons.mpr ⟨Name.isParcelName_iff.mpr ?_, ih⟩
      cases hasks with
      | atLeast hletters => exact hletters
      | anyVersion hletters => exact hletters

/-- Whatever a spec describes is well-formed. -/
theorem Describes.wellFormed {entries : List (String × Json)} {included : Bool}
    {parcel : Parcel} (hdescribes : Describes entries included parcel)
    (hacceptable : Acceptable entries) : parcel.WellFormed := by
  have hname : Name.Letters parcel.name := by
    obtain ⟨_, hlast, rfl⟩ := lastSays_none_iff.mp hdescribes.name
    exact hacceptable.lastName _ hlast
  have hnickname : Name.Letters parcel.nickname := by
    have hsaid := hdescribes.nickname
    unfold LastSays at hsaid
    split at hsaid
    · next value hlast =>
      obtain rfl : value = .string parcel.nickname := hsaid
      exact hacceptable.lastNickname _ hlast
    · rwa [← Option.some.inj hsaid]
  have hprereqs : NamesParcels parcel.prereqs := by
    have hsaid := hdescribes.prereqs
    unfold LastSays at hsaid
    split at hsaid
    · obtain ⟨_, -, hasked⟩ := hsaid
      exact namesParcels_of_asked hasked
    · rw [← Option.some.inj hsaid]
      exact List.forall_mem_nil _
  obtain ⟨flag, -, hinstalled⟩ := hdescribes.installed
  refine ⟨Name.isParcelName_iff.mpr hname, Name.isParcelName_iff.mpr hnickname, hprereqs, ?_⟩
  rw [hinstalled, Bool.and_eq_true, Bool.not_eq_true']
  exact And.right

end Parcel.Spec

namespace Parcel

open Spec

section FromSpec

variable {text : String} {source : Path} {included : Bool} {parcel : Parcel}

/-- A parcel that is read from a spec is well-formed. -/
theorem wellFormed_of_fromSpec (hread : fromSpec text source included = .ok parcel) :
    parcel.WellFormed := by
  obtain ⟨parsed, hparse, hdone⟩ := ok_of_bind hread
  cases hdone
  obtain ⟨entries, -, hacceptable, hdescribes⟩ := acceptable_of_parse hparse
  have hparsed := hdescribes.wellFormed hacceptable
  exact ⟨hparsed.name, hparsed.nickname, hparsed.prereqs, hparsed.installed⟩

/-- A parcel is included if its spec lies in an include dir. -/
theorem included_of_fromSpec (hread : fromSpec text source included = .ok parcel) :
    parcel.included = included := by
  obtain ⟨parsed, hparse, hdone⟩ := ok_of_bind hread
  cases hdone
  obtain ⟨entries, -, -, hdescribes⟩ := acceptable_of_parse hparse
  exact hdescribes.included

end FromSpec

/-- A text is taken for a parcel just when it is a hash whose entries make a
spec, and the parcel is the one that the last entries describe. -/
theorem fromJson_accepts (text : String) (included : Bool) :
    ((∃ parcel, fromJson text included = .ok parcel) ↔
      ∃ entries, Json.Document text.toList (.hash entries) ∧ Acceptable entries) ∧
    ∀ parcel, fromJson text included = .ok parcel ↔
      ∃ entries, Json.Document text.toList (.hash entries) ∧ Acceptable entries ∧
        Describes entries included parcel := by
  refine ⟨⟨?_, ?_⟩, fun parcel => ⟨acceptable_of_parse, ?_⟩⟩
  · rintro ⟨parcel, hparcel⟩
    obtain ⟨entries, hdocument, hacceptable, -⟩ := acceptable_of_parse hparcel
    exact ⟨entries, hdocument, hacceptable⟩
  · rintro ⟨entries, hdocument, hacceptable⟩
    obtain ⟨parcel, hparcel, -⟩ := exists_of_acceptable hdocument hacceptable included
    exact ⟨parcel, hparcel⟩
  · rintro ⟨entries, hdocument, hacceptable, hdescribes⟩
    obtain ⟨made, hmade, hmadeDescribes⟩ := exists_of_acceptable hdocument hacceptable included
    rw [hdescribes.unique hmadeDescribes]
    exact hmade

end Parcel

end Parcels
