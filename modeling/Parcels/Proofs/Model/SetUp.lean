import Mathlib.Data.List.Forall2
import Mathlib.Logic.Equiv.Basic
import Parcels.Proofs.Model.Renaming

/-!
# Setting up a model

Parcels join a new model and headers are declared for them by parcel name.
Entries can be made just when each can be made by itself and no two of them
clash, whatever their order, as long as parcels join before their classes.
-/

namespace Parcels.Model

/-- A header and the name of the parcel that it is meant for. -/
structure Declaration where
  parcel : String
  header : ClassHeader

/-- What a model is set up from. -/
inductive Entry where
  | joins (parcel : Parcel)
  | declares (declaration : Declaration)

namespace Entry

def parcel? : Entry → Option Parcel
  | .joins parcel => some parcel
  | .declares _ => none

def declaration? : Entry → Option Declaration
  | .joins _ => none
  | .declares declaration => some declaration

theorem parcel?_eq_some_iff {entry : Entry} {parcel : Parcel} :
    entry.parcel? = some parcel ↔ entry = .joins parcel := by
  cases entry <;> simp [parcel?]

theorem declaration?_eq_some_iff {entry : Entry} {declaration : Declaration} :
    entry.declaration? = some declaration ↔ entry = .declares declaration := by
  cases entry <;> simp [declaration?]

/-- The entry can be made by itself. -/
def WellFormed : Entry → Prop
  | .joins _ => True
  | .declares declaration => declaration.header.WellFormed

/-- The entries can be made beside each other. -/
def Apart : Entry → Entry → Prop
  | .joins left, .joins right =>
      left.name ≠ right.name ∧ left.nickname ≠ right.nickname
  | .declares left, .declares right =>
      left.parcel = right.parcel →
        clash? (left.header.inParcel default default)
          (right.header.inParcel default default) = none
  | _, _ => True

/-- The parcel of a declaration is among the entries before it. -/
def Follows (before : List Entry) : Entry → Prop
  | .joins _ => True
  | .declares declaration =>
      ∃ parcel ∈ before.filterMap parcel?, parcel.name = declaration.parcel

instance (before : List Entry) (entry : Entry) : Decidable (entry.Follows before) :=
  match entry with
  | .joins _ => .isTrue trivial
  | .declares declaration => inferInstanceAs (Decidable
      (∃ parcel ∈ before.filterMap parcel?, parcel.name = declaration.parcel))

theorem Apart.symm {left right : Entry} (hapart : left.Apart right) :
    right.Apart left := by
  cases left with
  | joins left =>
      cases right with
      | joins right => exact ⟨hapart.1.symm, hapart.2.symm⟩
      | declares right => trivial
  | declares left =>
      cases right with
      | joins right => trivial
      | declares right =>
          exact fun hsame => clash?_eq_none_comm.mp (hapart hsame.symm)

end Entry

/-- A call on the parcel of that name. -/
def callOn (name : String) (call : ParcelId → Call) : Action Model Unit := do
  match (← get).parcelNamed? name with
  | some id => (call id).run
  | none => throw (.unknownParcel name "")

def enter : Entry → Action Model Unit
  | .joins parcel => (Call.register parcel).run
  | .declares declaration =>
      callOn declaration.parcel fun id => .addClass id declaration.header

/-- The entries can be made in one model. -/
structure Fits (entries : List Entry) : Prop where
  wellFormed : ∀ entry ∈ entries, entry.WellFormed
  apart : entries.Pairwise Entry.Apart

/-- Every declaration stands behind its parcel. -/
def InTurn (entries : List Entry) : Prop :=
  ∀ (index : Nat) (bound : index < entries.length),
    entries[index].Follows (entries.take index)

instance (entries : List Entry) : Decidable (InTurn entries) :=
  inferInstanceAs (Decidable (∀ (index : Nat) (bound : index < entries.length),
    entries[index].Follows (entries.take index)))

theorem Fits.perm {entries entries' : List Entry} (hperm : entries.Perm entries')
    (hfits : Fits entries) : Fits entries' where
  wellFormed := fun entry hentry => hfits.wellFormed entry (hperm.mem_iff.mpr hentry)
  apart := (hperm.pairwise_iff Entry.Apart.symm).mp hfits.apart

theorem Fits.snoc {done : List Entry} (hfits : Fits done) {entry : Entry}
    (hwellFormed : entry.WellFormed) (hapart : ∀ other ∈ done, other.Apart entry) :
    Fits (done ++ [entry]) where
  wellFormed := List.forall_mem_append.mpr
    ⟨hfits.wellFormed, List.forall_mem_singleton.mpr hwellFormed⟩
  apart := List.pairwise_append.mpr
    ⟨hfits.apart, List.pairwise_singleton _ _, fun other hother _ hlast =>
      List.mem_singleton.mp hlast ▸ hapart other hother⟩

/-- What comes behind must be apart from what is done. -/
theorem Fits.next {done rest : List Entry} {entry : Entry}
    (hfits : Fits (done ++ entry :: rest)) :
    entry.WellFormed ∧ ∀ other ∈ done, other.Apart entry :=
  ⟨hfits.wellFormed entry (by simp), fun other hother =>
    (List.pairwise_append.mp hfits.apart).2.2 other hother entry (by simp)⟩

/-- The class comes from the declaration. -/
structure Declared (model : Model) (declaration : Declaration) (joined : Class) :
    Prop where
  parcel_known : joined.parcel ∈ model.parcelIds
  parcel_eq : (model.parcelAt joined.parcel).name = declaration.parcel
  class_eq : joined = declaration.header.inParcel joined.parcel joined.id

/-- A model that has been set up from some entries and from nothing else. -/
structure SetUp (entries : List Entry) (model : Model) : Prop where
  sound : model.Sound
  specs_eq : model.specs.toList = entries.filterMap Entry.parcel?
  declared : List.Forall₂ model.Declared (entries.filterMap Entry.declaration?)
    model.classes.toList
  links_eq : model.links = []
  fits : Fits entries

variable {model after : Model} {done rest : List Entry}

theorem callOn_of_named {name : String} {id : ParcelId} {call : ParcelId → Call}
    (hnamed : model.parcelNamed? name = some id) :
    callOn name call model = (call id).run model := by
  rw [callOn, bind_get, hnamed]

/-! ## What a model holds -/

theorem mem_parcels_iff {parcel : Parcel} :
    parcel ∈ done.filterMap Entry.parcel? ↔ .joins parcel ∈ done := by
  simp [Entry.parcel?_eq_some_iff]

theorem mem_declarations_iff {declaration : Declaration} :
    declaration ∈ done.filterMap Entry.declaration? ↔
      .declares declaration ∈ done := by
  simp [Entry.declaration?_eq_some_iff]

/-- Where lists are related one by one, each element has its partner. -/
theorem exists_partner {Left Right : Type} {related : Left → Right → Prop}
    {lefts : List Left} {rights : List Right} {index : Nat} {left : Left}
    (hrelated : List.Forall₂ related lefts rights) (hleft : lefts[index]? = some left) :
    ∃ right, rights[index]? = some right ∧ related left right := by
  induction hrelated generalizing index with
  | nil => cases hleft
  | @cons first second _ _ hhead _ ih =>
      cases index with
      | zero =>
          obtain rfl := Option.some.inj hleft
          exact ⟨second, rfl, hhead⟩
      | succ index => exact ih hleft

namespace SetUp

section Made

variable (hset : SetUp done model)

include hset

theorem nodup_names : (model.specs.toList.map Parcel.name).Nodup := by
  rw [hset.specs_eq, List.Nodup, List.pairwise_map]
  apply hset.fits.apart.filterMap Entry.parcel?
  intro left right hapart parcel hparcel other hother
  cases left <;> cases right <;> simp_all [Entry.parcel?, Entry.Apart]

theorem distinctNames : model.DistinctNames :=
  distinctNames_of_nodup hset.nodup_names

/-- Every declaration has given the class at its place. -/
theorem exists_class {declaration : Declaration} {index : Nat}
    (hindex : (done.filterMap Entry.declaration?)[index]? = some declaration) :
    ⟨index⟩ ∈ model.classIds ∧ model.Declared declaration (model.classAt ⟨index⟩) := by
  obtain ⟨joined, hjoined, hdeclared⟩ := exists_partner hset.declared hindex
  have hmember : ⟨index⟩ ∈ model.classIds := by
    simpa using (List.getElem?_eq_some_iff.mp hjoined).1
  rw [getElem?_classes hmember, Option.some.injEq] at hjoined
  exact ⟨hmember, hjoined ▸ hdeclared⟩

/-- Every class comes from the declaration at its place. -/
theorem exists_declaration {member : ClassId} (hmember : member ∈ model.classIds) :
    ∃ declaration,
      (done.filterMap Entry.declaration?)[member.index]? = some declaration ∧
        model.Declared declaration (model.classAt member) :=
  exists_partner hset.declared.flip (getElem?_classes hmember)

theorem parcelNamed?_eq_none_iff {name : String} :
    model.parcelNamed? name = none ↔
      ∀ parcel, .joins parcel ∈ done → parcel.name ≠ name := by
  simp only [Model.parcelNamed?_eq_none_iff, hset.specs_eq, mem_parcels_iff]

theorem parcelNicknamed?_eq_none_iff {nickname : String} :
    model.parcelNicknamed? nickname = none ↔
      ∀ parcel, .joins parcel ∈ done → parcel.nickname ≠ nickname := by
  simp only [Model.parcelNicknamed?_eq_none_iff, hset.specs_eq, mem_parcels_iff]

/-- A class of a parcel comes from a declaration for it. -/
theorem exists_declares {name : String} {id : ParcelId} {member : ClassId}
    (hnamed : model.parcelNamed? name = some id) (hmember : member ∈ model.classesOf id) :
    ∃ declaration, .declares declaration ∈ done ∧ declaration.parcel = name ∧
      model.classAt member = declaration.header.inParcel id member := by
  obtain ⟨hknown, howner⟩ := hset.sound.partitioned.mem_classesOf_iff.mp hmember
  obtain ⟨declaration, hindex, hdeclared⟩ := hset.exists_declaration hknown
  change (model.classAt member).parcel = id at howner
  have hclass := hdeclared.class_eq
  have hparcel := hdeclared.parcel_eq
  rw [howner, hset.sound.partitioned.numbered member hknown] at hclass
  rw [howner, (parcelNamed?_eq_some hnamed).2] at hparcel
  exact ⟨declaration, mem_declarations_iff.mp (List.mem_of_getElem? hindex), hparcel.symm,
    hclass⟩

/-- A declaration for a parcel has given it a class. -/
theorem exists_member {declaration : Declaration} {id : ParcelId}
    (hnamed : model.parcelNamed? declaration.parcel = some id)
    (hdeclaration : .declares declaration ∈ done) :
    ∃ member ∈ model.classesOf id,
      model.classAt member = declaration.header.inParcel id member := by
  obtain ⟨hid, hname⟩ := parcelNamed?_eq_some hnamed
  obtain ⟨index, hindex⟩ :=
    List.mem_iff_getElem?.mp (mem_declarations_iff.mpr hdeclaration)
  obtain ⟨hknown, hdeclared⟩ := hset.exists_class hindex
  have howner : model.owner ⟨index⟩ = id := by
    apply hset.distinctNames _ hdeclared.parcel_known _ hid
    rw [hdeclared.parcel_eq, hname]
  refine ⟨⟨index⟩, hset.sound.partitioned.mem_classesOf_iff.mpr ⟨hknown, howner⟩, ?_⟩
  have hclass := hdeclared.class_eq
  change (model.classAt ⟨index⟩).parcel = id at howner
  rwa [howner, hset.sound.partitioned.numbered _ hknown] at hclass

end Made

/-! ## One entry -/

theorem start : SetUp [] {} where
  sound := .empty
  specs_eq := by simp [specs]
  declared := .nil
  links_eq := rfl
  fits := ⟨List.forall_mem_nil _, .nil⟩

variable (hset : SetUp done model)

include hset

theorem registered {parcel : Parcel} {newId : ParcelId}
    (hregister : model.register parcel = .ok (newId, after)) :
    SetUp (done ++ [.joins parcel]) after := by
  have hsound := hset.sound.registered hregister
  obtain ⟨_, rfl, hname, hnickname⟩ := register_eq_ok hregister
  constructor
  case sound => exact hsound
  case specs_eq =>
    rw [List.filterMap_append, ← hset.specs_eq]
    simp [specs, Entry.parcel?]
  case declared =>
    simp only [List.filterMap_append, Entry.declaration?, List.filterMap_cons,
      List.filterMap_nil, List.append_nil]
    apply hset.declared.imp
    intro declaration joined hdeclared
    obtain ⟨hknown, hparcel, hclass⟩ := hdeclared
    refine ⟨mem_parcelIds_of_joined rfl hknown, ?_, hclass⟩
    rw [parcelAt_of_joined rfl hknown]
    exact hparcel
  case links_eq => exact hset.links_eq
  case fits =>
    have hwellFormed : (Entry.joins parcel).WellFormed := trivial
    apply hset.fits.snoc hwellFormed
    intro other hother
    cases other with
    | joins other => exact ⟨hset.parcelNamed?_eq_none_iff.mp hname _ hother,
        hset.parcelNicknamed?_eq_none_iff.mp hnickname _ hother⟩
    | declares _ => trivial

theorem addedClass {declaration : Declaration} {id : ParcelId} {newId : ClassId}
    (hnamed : model.parcelNamed? declaration.parcel = some id)
    (hadd : model.addClass id declaration.header = .ok (newId, after)) :
    SetUp (done ++ [.declares declaration]) after := by
  obtain ⟨hid, hname⟩ := parcelNamed?_eq_some hnamed
  have hsound := hset.sound.declared hid hadd
  obtain ⟨_, hwellFormed, hdeclares⟩ := addClass_eq_ok hid hadd
  have hgrown : ∀ {other joined}, model.Declared other joined →
      after.Declared other joined := by
    intro other joined hdeclared
    constructor
    · rw [parcelIds_congr hdeclares.specs_eq]
      exact hdeclared.parcel_known
    · rw [toParcel_congr hdeclares.specs_eq]
      exact hdeclared.parcel_eq
    · exact hdeclared.class_eq
  constructor
  case sound => exact hsound
  case specs_eq =>
    rw [hdeclares.specs_eq, List.filterMap_append, hset.specs_eq]
    simp [Entry.parcel?]
  case declared =>
    rw [List.filterMap_append, hdeclares.classes_eq, Array.toList_push]
    apply List.rel_append
    · exact hset.declared.imp fun _ _ => hgrown
    · exact .cons (hgrown ⟨hid, hname, rfl⟩) .nil
  case links_eq => rw [hdeclares.links_eq, hset.links_eq]
  case fits =>
    have hwellFormed : (Entry.declares declaration).WellFormed := hwellFormed
    apply hset.fits.snoc hwellFormed
    intro other hother
    cases other with
    | joins _ => trivial
    | declares other =>
        intro hsame
        obtain ⟨member, hmember, hclass⟩ :=
          hset.exists_member ((congrArg model.parcelNamed? hsame).trans hnamed) hother
        have hdiffer := hdeclares.differ member hmember
        rw [hclass] at hdiffer
        exact hdiffer

/-- An entry in its turn is made unless it does not fit. -/
theorem enter_ends {entry : Entry} (rest : List Entry) (hturn : entry.Follows done) :
    Ends (enter entry model) (fun _ => SetUp (done ++ [entry]))
      (fun _ _ => ¬ Fits (done ++ entry :: rest)) := by
  cases entry with
  | joins parcel =>
      change Ends (Call.extend (·.register parcel) model) _ _
      apply Call.extend_ends fun _ _ => hset.registered
      -- A parcel is refused for a name that one before it has.
      intro error hregister hfits
      have hapart := hfits.next.2
      apply register_ne_error _ _ hregister
      · exact hset.parcelNamed?_eq_none_iff.mpr fun other hother =>
          (hapart _ hother).1
      · exact hset.parcelNicknamed?_eq_none_iff.mpr fun other hother =>
          (hapart _ hother).2
  | declares declaration =>
      obtain ⟨parcel, hparcel, hname⟩ := hturn
      cases hnamed : model.parcelNamed? declaration.parcel with
      | none =>
          have hjoined := mem_parcels_iff.mp hparcel
          exact absurd hname (hset.parcelNamed?_eq_none_iff.mp hnamed _ hjoined)
      | some id =>
          change Ends (callOn declaration.parcel _ model) _ _
          rw [callOn_of_named hnamed]
          rw [Call.run_addClass]
          apply Call.extend_ends fun _ _ => hset.addedClass hnamed
          -- A class is refused for its header or for a class of the same parcel,
          -- which comes from a declaration before it.
          intro error hadd hfits
          obtain ⟨hwellFormed, hapart⟩ := hfits.next
          refine addClass_ne_error ⟨hwellFormed, fun member hmember => ?_⟩ hadd
          obtain ⟨other, hother, hsame, hclass⟩ := hset.exists_declares hnamed hmember
          rw [hclass]
          exact hapart _ hother hsame

end SetUp

/-! ## All entries -/

/-- In turn, all entries are made just when they fit. -/
theorem setUp_ends {entries : List Entry} (hturn : InTurn entries) :
    Ends (entries.forM enter {}) (fun _ => SetUp entries)
      (fun _ _ => ¬ Fits entries) := by
  apply Ends.forM SetUp _ .start
  intro done entry rest model hentries hset
  subst hentries
  apply hset.enter_ends rest
  simpa using hturn done.length (by simp)

/-! ## Another order -/

/-- Places behind the first one are renamed. -/
def shiftPlaces (places : Equiv.Perm Nat) : Equiv.Perm Nat where
  toFun
    | 0 => 0
    | index + 1 => places index + 1
  invFun
    | 0 => 0
    | index + 1 => places.symm index + 1
  left_inv index := by cases index <;> simp
  right_inv index := by cases index <;> simp

/-- A permuted list holds the same elements at other places. -/
theorem exists_places {Element : Type} {list list' : List Element}
    (hperm : list.Perm list') :
    ∃ places : Equiv.Perm Nat, ∀ index, list'[places index]? = list[index]? := by
  induction hperm with
  | nil => exact ⟨.refl Nat, fun _ => rfl⟩
  | cons head _ ih =>
      obtain ⟨places, hplaces⟩ := ih
      refine ⟨shiftPlaces places, fun index => ?_⟩
      cases index with
      | zero => rfl
      | succ index => exact hplaces index
  | swap first second rest =>
      refine ⟨Equiv.swap 0 1, fun index => ?_⟩
      match index with
      | 0 => rfl
      | 1 => rfl
      | index + 2 => rw [Equiv.swap_apply_of_ne_of_ne (by simp) (by simp)]; rfl
  | trans _ _ ih ih' =>
      obtain ⟨places, hplaces⟩ := ih
      obtain ⟨places', hplaces'⟩ := ih'
      exact ⟨places.trans places', fun index => (hplaces' _).trans (hplaces index)⟩

theorem place_lt_iff {Element : Type} {list list' : List Element}
    {places : Equiv.Perm Nat} (hplaces : ∀ index, list'[places index]? = list[index]?)
    (index : Nat) : places index < list'.length ↔ index < list.length := by
  rw [← Nat.not_le, ← Nat.not_le, ← List.getElem?_eq_none_iff, hplaces,
    List.getElem?_eq_none_iff]

def parcelPlaces (places : Equiv.Perm Nat) : ParcelId ≃ ParcelId where
  toFun id := ⟨places id.index⟩
  invFun id := ⟨places.symm id.index⟩
  left_inv id := by simp
  right_inv id := by simp

def classPlaces (places : Equiv.Perm Nat) : ClassId ≃ ClassId where
  toFun id := ⟨places id.index⟩
  invFun id := ⟨places.symm id.index⟩
  left_inv id := by simp
  right_inv id := by simp

section Places

variable {other : Model} {places slots : Equiv.Perm Nat}
  (hplaces : ∀ index, other.specs.toList[places index]? = model.specs.toList[index]?)

include hplaces

theorem toParcel_of_places (id : ParcelId) :
    (other.parcelAt (parcelPlaces places id)).toParcel =
      (model.parcelAt id).toParcel := by
  rw [toParcel_parcelAt, toParcel_parcelAt, Array.getD_eq_getD_getElem?,
    Array.getD_eq_getD_getElem?, ← Array.getElem?_toList, ← Array.getElem?_toList]
  exact congrArg (Option.getD · default) (hplaces id.index)

theorem mem_parcelIds_of_places (id : ParcelId) :
    parcelPlaces places id ∈ other.parcelIds ↔ id ∈ model.parcelIds := by
  simpa [parcelPlaces] using place_lt_iff hplaces id.index

/-- A class comes from the same declaration in both models, and the parcels that
own it have the same name. -/
theorem SetUp.classAt_of_places {entries entries' : List Entry}
    (hset : SetUp entries model) (hset' : SetUp entries' other)
    (hslots : ∀ index, (entries'.filterMap Entry.declaration?)[slots index]? =
      (entries.filterMap Entry.declaration?)[index]?)
    {id : ClassId} (hid : id ∈ model.classIds) :
    other.classAt (classPlaces slots id) =
      { model.classAt id with
        id := classPlaces slots (model.classAt id).id
        parcel := parcelPlaces places (model.owner id) } := by
  obtain ⟨declaration, hindex, hdeclared⟩ := hset.exists_declaration hid
  obtain ⟨hknown', hdeclared'⟩ := hset'.exists_class ((hslots id.index).trans hindex)
  have howner : other.owner (classPlaces slots id) =
      parcelPlaces places (model.owner id) := by
    apply hset'.distinctNames _ hdeclared'.parcel_known _
      ((mem_parcelIds_of_places hplaces _).mpr hdeclared.parcel_known)
    rw [toParcel_of_places hplaces, hdeclared'.parcel_eq]
    exact hdeclared.parcel_eq.symm
  have hnumbered : (other.classAt (classPlaces slots id)).id = classPlaces slots id :=
    hset'.sound.partitioned.numbered _ hknown'
  calc other.classAt (classPlaces slots id)
      = declaration.header.inParcel (other.owner (classPlaces slots id))
          (other.classAt (classPlaces slots id)).id := hdeclared'.class_eq
    _ = { declaration.header.inParcel (model.owner id) (model.classAt id).id with
          id := classPlaces slots (model.classAt id).id
          parcel := parcelPlaces places (model.owner id) } := by
        rw [howner, hnumbered, hset.sound.partitioned.numbered id hid]
        rfl
    _ = { model.classAt id with
          id := classPlaces slots (model.classAt id).id
          parcel := parcelPlaces places (model.owner id) } := by
        rw [owner, ← hdeclared.class_eq]

end Places

/-- Made in another order, the same entries give the same model with parcels and
classes in other places. -/
theorem SetUp.exists_renames {entries entries' : List Entry} {model' : Model}
    (hset : SetUp entries model) (hset' : SetUp entries' model')
    (hperm : entries.Perm entries') :
    ∃ parcels classes, Renames parcels classes model model' ∧
      ∀ id, SameParents classes model model' id := by
  have hparcels := hperm.filterMap Entry.parcel?
  have hdeclarations := hperm.filterMap Entry.declaration?
  obtain ⟨places, hplaces⟩ := exists_places hparcels
  obtain ⟨slots, hslots⟩ := exists_places hdeclarations
  rw [← hset.specs_eq, ← hset'.specs_eq] at hplaces
  have hunlinked : ∀ id, SameParents (classPlaces slots) model model' id := by
    intro id member _
    simp [parent?, hset.links_eq, hset'.links_eq]
  refine ⟨parcelPlaces places, classPlaces slots, ?_, hunlinked⟩
  constructor
  case parcel_eq => exact toParcel_of_places hplaces
  case parcel_known => exact mem_parcelIds_of_places hplaces
  case parcels_size =>
    rw [← size_specs, ← size_specs, ← Array.length_toList, ← Array.length_toList,
      hset.specs_eq, hset'.specs_eq, hparcels.length_eq]
  case class_eq => exact fun _ => hset.classAt_of_places hplaces hset' hslots
  case class_known =>
    intro id
    have hiff := place_lt_iff hslots id.index
    rw [hset.declared.length_eq, hset'.declared.length_eq] at hiff
    simpa [classPlaces] using hiff
  case classes_size =>
    rw [← Array.length_toList, ← Array.length_toList, ← hset.declared.length_eq,
      ← hset'.declared.length_eq, hdeclarations.length_eq]

end Parcels.Model
