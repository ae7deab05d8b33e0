import Mathlib.Data.List.Find
import Mathlib.Data.List.Nodup
import Parcels.Model.Prerequisites
import Parcels.Proofs.Graph.Reachability

/-!
# Registered parcels

Which parcels there are, what they are called and which ones they require
depends on their descriptions alone, not on their classes.  A parcel that
joins leaves all answers about the others as they were.
-/

namespace Parcels.Model

/-- The descriptions of all parcels, without their classes. -/
def specs (model : Model) : Array Parcel :=
  model.parcels.map RegisteredParcel.toParcel

variable {model other : Model}

@[simp]
theorem size_specs (model : Model) : model.specs.size = model.parcels.size := by
  simp [specs]

@[simp]
theorem mem_parcelIds {id : ParcelId} :
    id ∈ model.parcelIds ↔ id.index < model.parcels.size := by
  simp only [parcelIds, List.mem_map, List.mem_range]
  constructor
  · rintro ⟨index, hindex, rfl⟩
    exact hindex
  · exact fun hindex => ⟨id.index, hindex, rfl⟩

@[simp]
theorem length_parcelIds (model : Model) :
    model.parcelIds.length = model.parcels.size := by
  simp [parcelIds]

theorem nodup_parcelIds (model : Model) : model.parcelIds.Nodup :=
  List.nodup_range.map fun _ _ hids => congrArg ParcelId.index hids

theorem toParcel_parcelAt (model : Model) (id : ParcelId) :
    (model.parcelAt id).toParcel = model.specs.getD id.index default := by
  rcases Nat.lt_or_ge id.index model.parcels.size with hindex | hindex
  · simp [parcelAt, specs, Array.getD_eq_getD_getElem?, hindex]
  · simp [parcelAt, specs, Array.getD_eq_getD_getElem?, hindex]
    rfl

theorem parcelNamed?_eq_some {name : String} {id : ParcelId}
    (hnamed : model.parcelNamed? name = some id) :
    id ∈ model.parcelIds ∧ (model.parcelAt id).name = name := by
  have hname := List.find?_some hnamed
  exact ⟨List.mem_of_find?_eq_some hnamed, by simpa using hname⟩

theorem getElem?_specs {id : ParcelId} (hid : id ∈ model.parcelIds) :
    model.specs.toList[id.index]? = some (model.parcelAt id).toParcel := by
  have hindex : id.index < model.specs.size := by simpa using hid
  rw [toParcel_parcelAt, Array.getD_eq_getD_getElem?, Array.getElem?_toList,
    Array.getElem?_eq_getElem hindex, Option.getD_some]

theorem exists_parcelAt_iff {parcel : Parcel} :
    (∃ id ∈ model.parcelIds, (model.parcelAt id).toParcel = parcel) ↔
      parcel ∈ model.specs.toList := by
  rw [List.mem_iff_getElem?]
  constructor
  · rintro ⟨id, hid, rfl⟩
    exact ⟨id.index, getElem?_specs hid⟩
  · rintro ⟨index, hparcel⟩
    have hid : ⟨index⟩ ∈ model.parcelIds := by
      simpa using (List.getElem?_eq_some_iff.mp hparcel).1
    rw [getElem?_specs hid] at hparcel
    exact ⟨⟨index⟩, hid, Option.some.inj hparcel⟩

/-- No parcel is found just when none has what is looked for. -/
theorem find?_parcelIds_eq_none_iff (model : Model) (holds : Parcel → Bool) :
    (model.parcelIds.find? fun id => holds (model.parcelAt id).toParcel) = none ↔
      ∀ parcel ∈ model.specs.toList, ¬ holds parcel := by
  rw [List.find?_eq_none]
  simp only [← exists_parcelAt_iff]
  constructor
  · rintro hnone _ ⟨id, hid, rfl⟩
    exact hnone id hid
  · exact fun hnone id hid => hnone _ ⟨id, hid, rfl⟩

theorem parcelNamed?_eq_none_iff {name : String} :
    model.parcelNamed? name = none ↔
      ∀ parcel ∈ model.specs.toList, parcel.name ≠ name := by
  simpa [parcelNamed?] using
    model.find?_parcelIds_eq_none_iff fun parcel => parcel.name == name

theorem parcelNicknamed?_eq_none_iff {nickname : String} :
    model.parcelNicknamed? nickname = none ↔
      ∀ parcel ∈ model.specs.toList, parcel.nickname ≠ nickname := by
  simpa [parcelNicknamed?] using
    model.find?_parcelIds_eq_none_iff fun parcel => parcel.nickname == nickname

/-- Parcels are told apart by their names. -/
def DistinctNames (model : Model) : Prop :=
  ∀ left ∈ model.parcelIds, ∀ right ∈ model.parcelIds,
    (model.parcelAt left).name = (model.parcelAt right).name → left = right

theorem distinctNames_of_nodup (hnames : (model.specs.toList.map Parcel.name).Nodup) :
    model.DistinctNames := by
  intro left hleft right hright hname
  have hbound : left.index < (model.specs.toList.map Parcel.name).length := by
    simpa using hleft
  have hindex : left.index = right.index := by
    rw [← List.getElem?_inj hbound hnames]
    simp [getElem?_specs hleft, getElem?_specs hright, hname]
  exact congrArg ParcelId.mk hindex

/-- Where names are distinct, a parcel is found by its name. -/
theorem parcelNamed?_eq_some_iff (hdistinct : model.DistinctNames) {name : String}
    {id : ParcelId} : model.parcelNamed? name = some id ↔
      id ∈ model.parcelIds ∧ (model.parcelAt id).name = name := by
  refine ⟨parcelNamed?_eq_some, ?_⟩
  rintro ⟨hid, rfl⟩
  cases hfound : model.parcelNamed? (model.parcelAt id).name with
  | none =>
      have hnone := List.find?_eq_none.mp hfound id hid
      simp at hnone
  | some first =>
      obtain ⟨hfirst, hname⟩ := parcelNamed?_eq_some hfound
      rw [hdistinct first hfirst id hid hname]

theorem parcelAt_of_not_mem {id : ParcelId} (hid : id ∉ model.parcelIds) :
    model.parcelAt id = default := by
  have houtside : model.parcels.size ≤ id.index := by simpa using hid
  simp [parcelAt, Array.getD_eq_getD_getElem?, houtside]

theorem mem_parcelIds_of_mem_prereqs {id : ParcelId} {prereq : Prereq}
    (hprereq : prereq ∈ (model.parcelAt id).prereqs) : id ∈ model.parcelIds := by
  by_contra hid
  rw [parcelAt_of_not_mem hid] at hprereq
  cases hprereq

theorem mem_prereqParcels {id required : ParcelId} :
    required ∈ model.prereqParcels id ↔
      ∃ prereq ∈ (model.parcelAt id).prereqs,
        model.parcelNamed? prereq.name = some required := by
  simp [prereqParcels]

theorem prereqParcels_subset (model : Model) (id : ParcelId) :
    model.prereqParcels id ⊆ model.parcelIds := by
  intro required hrequired
  obtain ⟨prereq, _, hnamed⟩ := mem_prereqParcels.mp hrequired
  exact (parcelNamed?_eq_some hnamed).1

/-! ## Equal descriptions -/

theorem parcelIds_congr (hspecs : other.specs = model.specs) :
    other.parcelIds = model.parcelIds := by
  have hsize : other.parcels.size = model.parcels.size := by
    rw [← size_specs other, hspecs, size_specs]
  rw [parcelIds, parcelIds, hsize]

theorem toParcel_congr (hspecs : other.specs = model.specs) (id : ParcelId) :
    (other.parcelAt id).toParcel = (model.parcelAt id).toParcel := by
  rw [toParcel_parcelAt, toParcel_parcelAt, hspecs]

theorem parcelNamed?_congr (hspecs : other.specs = model.specs) (name : String) :
    other.parcelNamed? name = model.parcelNamed? name := by
  simp only [parcelNamed?, parcelIds_congr hspecs, toParcel_congr hspecs]

theorem prereqParcels_congr (hspecs : other.specs = model.specs) :
    other.prereqParcels = model.prereqParcels := by
  funext id
  simp only [prereqParcels, toParcel_congr hspecs, parcelNamed?_congr hspecs]

@[simp]
theorem specs_setClasses (model : Model) (id : ParcelId)
    (classes : List ClassId) :
    (model.setClasses id classes).specs = model.specs := by
  ext index
  · simp [setClasses]
  · simp [specs, setClasses, Array.getElem_modify]
    split <;> rfl

/-! ## Registration -/

/-- A parcel that joins comes behind all others, and its names are new. -/
theorem register_eq_ok {parcel : Parcel} {id : ParcelId}
    (hregister : model.register parcel = .ok (id, other)) :
    id = ⟨model.parcels.size⟩ ∧
      other = { model with parcels := model.parcels.push { parcel with } } ∧
      model.parcelNamed? parcel.name = none ∧
      model.parcelNicknamed? parcel.nickname = none := by
  unfold register checkNames at hregister
  split at hregister
  · simp [bind, Except.bind] at hregister
  · next hname =>
    split at hregister
    · simp [bind, Except.bind] at hregister
    · next hnickname =>
      simp only [bind, Except.bind, pure, Except.pure, Except.ok.injEq,
        Prod.mk.injEq] at hregister
      obtain ⟨rfl, rfl⟩ := hregister
      exact ⟨rfl, rfl, by simpa using hname, by simpa using hnickname⟩

/-- A parcel joins when its name and its nickname are new. -/
theorem register_ne_error {parcel : Parcel} {error : Error}
    (hname : model.parcelNamed? parcel.name = none)
    (hnickname : model.parcelNicknamed? parcel.nickname = none) :
    model.register parcel ≠ .error error := by
  intro hfails
  rw [register, checkNames, hname, hnickname] at hfails
  cases hfails

section Joined

variable {parcel : RegisteredParcel}
  (hjoined : other.parcels = model.parcels.push parcel)

include hjoined

theorem parcelAt_of_joined {id : ParcelId} (hid : id ∈ model.parcelIds) :
    other.parcelAt id = model.parcelAt id := by
  have hindex : id.index < model.parcels.size := mem_parcelIds.mp hid
  simp [parcelAt, hjoined, Array.getD_eq_getD_getElem?, Array.getElem?_push,
    hindex, Nat.ne_of_lt hindex]

theorem mem_parcelIds_of_joined {id : ParcelId} (hid : id ∈ model.parcelIds) :
    id ∈ other.parcelIds := by
  rw [mem_parcelIds] at *
  simp only [hjoined, Array.size_push]
  omega

theorem parcelNamed?_of_joined {name : String} {id : ParcelId}
    (hnamed : model.parcelNamed? name = some id) :
    other.parcelNamed? name = some id := by
  have hids : other.parcelIds = model.parcelIds ++ [⟨model.parcels.size⟩] := by
    simp [parcelIds, hjoined, List.range_succ]
  have hold : model.parcelIds.find? (fun known =>
      (other.parcelAt known).name == name) = some id := by
    rw [← hnamed, parcelNamed?]
    refine List.find?_congr fun known hknown => ?_
    rw [parcelAt_of_joined hjoined hknown]
  rw [parcelNamed?, hids, List.find?_append, hold, Option.some_or]

theorem prereqParcels_of_joined (id : ParcelId) :
    model.prereqParcels id ⊆ other.prereqParcels id := by
  intro required hrequired
  obtain ⟨prereq, hprereq, hnamed⟩ := mem_prereqParcels.mp hrequired
  refine mem_prereqParcels.mpr ⟨prereq, ?_, parcelNamed?_of_joined hjoined hnamed⟩
  rwa [parcelAt_of_joined hjoined (mem_parcelIds_of_mem_prereqs hprereq)]

end Joined

end Parcels.Model
