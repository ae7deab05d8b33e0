import Mathlib.Data.List.Nodup
import Parcels.Proofs.Action
import Parcels.Proofs.Model.Parcels

/-!
# Declared classes

Every class is listed once, by the parcel that owns it, and the classes of one
parcel differ in name, struct symbol and nickname.  A class has the id under
which the model holds it.  Declaring a class keeps this up, and so does any
reordering of a parcel's classes.
-/

namespace Parcels.ClassHeader

/-- A header that can join a parcel. -/
structure WellFormed (header : ClassHeader) : Prop where
  name : Name.isClassName header.name = true
  parent : ∀ parent, header.parent = some parent → Name.isClassName parent = true
  nickname : ∀ nickname, header.nickname = some nickname →
    Name.isIdentifier nickname = true

/-- The class that a header declares in a parcel. -/
def inParcel (header : ClassHeader) (parcel : ParcelId) (id : ClassId) : Class where
  id := id
  parcel := parcel
  name := header.name
  nickname := header.nickname.getD header.structSymbol
  parentName := header.parent
  modifiers := header.modifiers

/-- A header gives a class just when it is well-formed. -/
theorem make_eq_ok_iff {header : ClassHeader} {parcel : ParcelId} {id : ClassId}
    {added : Class} : Class.make id parcel header = .ok added ↔
      header.WellFormed ∧ added = header.inParcel parcel id := by
  unfold Class.make
  split
  · next hname =>
    simp only [reduceCtorEq, false_iff]
    exact fun hmake => absurd hmake.1.name (by simpa using hname)
  · next hname =>
    split
    · next parent hparent =>
      obtain ⟨hdeclared, hmalformed⟩ := Option.filter_eq_some_iff.mp hparent
      simp only [reduceCtorEq, false_iff]
      exact fun hmake => absurd (hmake.1.parent parent hdeclared)
        (by simpa using hmalformed)
    · next hparent =>
      split
      · next nickname hnickname =>
        obtain ⟨hdeclared, hmalformed⟩ := Option.filter_eq_some_iff.mp hnickname
        simp only [reduceCtorEq, false_iff]
        exact fun hmake => absurd (hmake.1.nickname nickname hdeclared)
          (by simpa using hmalformed)
      · next hnickname =>
        have hwellFormed : header.WellFormed :=
          { name := by simpa using hname
            parent := by simpa [Option.filter_eq_none_iff] using hparent
            nickname := by simpa [Option.filter_eq_none_iff] using hnickname }
        rw [and_iff_right hwellFormed, Except.ok.injEq, eq_comm]
        rfl

end Parcels.ClassHeader

namespace Parcels.Model

variable {model other : Model}

@[simp]
theorem mem_classIds {id : ClassId} :
    id ∈ model.classIds ↔ id.index < model.classes.size := by
  simp only [classIds, List.mem_map, List.mem_range]
  constructor
  · rintro ⟨index, hindex, rfl⟩
    exact hindex
  · exact fun hindex => ⟨id.index, hindex, rfl⟩

@[simp]
theorem length_classIds (model : Model) :
    model.classIds.length = model.classes.size := by
  simp [classIds]

theorem nodup_classIds (model : Model) : model.classIds.Nodup :=
  List.nodup_range.map fun _ _ hids => congrArg ClassId.index hids

theorem getElem?_classes {id : ClassId} (hid : id ∈ model.classIds) :
    model.classes.toList[id.index]? = some (model.classAt id) := by
  rw [classAt, Array.getD_eq_getD_getElem?, Array.getElem?_toList,
    Array.getElem?_eq_getElem (mem_classIds.mp hid), Option.getD_some]

theorem classAt_congr (hclasses : other.classes = model.classes) :
    other.classAt = model.classAt := by
  funext id
  rw [classAt, classAt, hclasses]

theorem owner_congr (hclasses : other.classes = model.classes) :
    other.owner = model.owner := by
  funext id
  rw [owner, owner, classAt_congr hclasses]

theorem className_congr (hclasses : other.classes = model.classes) :
    other.className = model.className := by
  funext id
  rw [className, className, classAt_congr hclasses]

/-- The class lists of all parcels together are the classes of the model. -/
structure Partitioned (model : Model) : Prop where
  owner_known : ∀ id ∈ model.classIds, model.owner id ∈ model.parcelIds
  mem_iff : ∀ id ∈ model.parcelIds, ∀ member,
    member ∈ model.classesOf id ↔ member ∈ model.classIds ∧ model.owner member = id
  nodup : ∀ id, (model.classesOf id).Nodup
  differ : ∀ id, ∀ left ∈ model.classesOf id, ∀ right ∈ model.classesOf id,
    left ≠ right → clash? (model.classAt left) (model.classAt right) = none
  numbered : ∀ id ∈ model.classIds, (model.classAt id).id = id

theorem clash?_eq_none_iff {existing added : Class} :
    clash? existing added = none ↔ existing.name ≠ added.name ∧
      existing.structSymbol ≠ added.structSymbol ∧
      existing.nickname ≠ added.nickname := by
  unfold clash?
  split <;> simp_all
  split <;> simp_all

theorem clash?_eq_none_comm {left right : Class} :
    clash? left right = none ↔ clash? right left = none := by
  simp only [clash?_eq_none_iff, ne_comm]

/-! ## Class lists -/

theorem classesOf_of_not_mem {id : ParcelId} (hid : id ∉ model.parcelIds) :
    model.classesOf id = [] := by
  rw [classesOf, parcelAt_of_not_mem hid]
  rfl

theorem mem_parcelIds_of_mem_classesOf {id : ParcelId} {member : ClassId}
    (hmember : member ∈ model.classesOf id) : id ∈ model.parcelIds := by
  by_contra hid
  simp [classesOf_of_not_mem hid] at hmember

theorem classesOf_setClasses_self {id : ParcelId} (hid : id ∈ model.parcelIds)
    (classes : List ClassId) :
    (model.setClasses id classes).classesOf id = classes := by
  have hindex : id.index < model.parcels.size := mem_parcelIds.mp hid
  simp [classesOf, parcelAt, setClasses, Array.getD_eq_getD_getElem?,
    Array.getElem_modify_self, hindex]

/-- Of two lists that a parcel is given the second stays. -/
theorem setClasses_setClasses (model : Model) (id : ParcelId) (first second : List ClassId) :
    (model.setClasses id first).setClasses id second = model.setClasses id second := by
  have hparcels : ((model.setClasses id first).setClasses id second).parcels =
      (model.setClasses id second).parcels := by
    apply Array.ext
    · simp [setClasses]
    · intro index _ _
      simp only [setClasses, Array.getElem_modify]
      split <;> rfl
  exact congrArg (fun parcels => { model with parcels := parcels }) hparcels

theorem classesOf_setClasses_of_ne {id known : ParcelId} (hne : known ≠ id)
    (classes : List ClassId) :
    (model.setClasses id classes).classesOf known = model.classesOf known := by
  have hindex : id.index ≠ known.index := fun heq =>
    hne (by cases id; cases known; simp_all)
  simp [classesOf, parcelAt, setClasses, Array.getD_eq_getD_getElem?,
    Array.getElem?_modify, hindex]

theorem Partitioned.mem_classIds_of_mem {id : ParcelId} {member : ClassId}
    (hpartitioned : model.Partitioned) (hmember : member ∈ model.classesOf id) :
    member ∈ model.classIds :=
  ((hpartitioned.mem_iff id (mem_parcelIds_of_mem_classesOf hmember) member).mp
    hmember).1

theorem Partitioned.owner_of_mem {id : ParcelId} {member : ClassId}
    (hpartitioned : model.Partitioned) (hmember : member ∈ model.classesOf id) :
    model.owner member = id :=
  ((hpartitioned.mem_iff id (mem_parcelIds_of_mem_classesOf hmember) member).mp
    hmember).2

theorem Partitioned.mem_classesOf_owner {id : ClassId}
    (hpartitioned : model.Partitioned) (hid : id ∈ model.classIds) :
    id ∈ model.classesOf (model.owner id) :=
  (hpartitioned.mem_iff _ (hpartitioned.owner_known id hid) id).mpr ⟨hid, rfl⟩

theorem Partitioned.mem_classesOf_iff (hpartitioned : model.Partitioned)
    {id : ParcelId} {member : ClassId} : member ∈ model.classesOf id ↔
      member ∈ model.classIds ∧ model.owner member = id := by
  constructor
  · exact fun hmember => ⟨hpartitioned.mem_classIds_of_mem hmember,
      hpartitioned.owner_of_mem hmember⟩
  · rintro ⟨hknown, rfl⟩
    exact hpartitioned.mem_classesOf_owner hknown

/-- Classes of one parcel are told apart by their names. -/
theorem Partitioned.eq_of_className_eq {id : ParcelId} {left right : ClassId}
    (hpartitioned : model.Partitioned) (hleft : left ∈ model.classesOf id)
    (hright : right ∈ model.classesOf id)
    (hname : model.className left = model.className right) : left = right := by
  by_contra hne
  exact (clash?_eq_none_iff.mp
    (hpartitioned.differ id left hleft right hright hne)).1 hname

/-- A class that is fetched by name is the one of the parcel with this name. -/
theorem Partitioned.fetchClass?_eq_some_iff (hpartitioned : model.Partitioned)
    {id : ParcelId} {name : String} {member : ClassId} :
    model.fetchClass? id name = some member ↔
      member ∈ model.classesOf id ∧ model.className member = name := by
  constructor
  · intro hfound
    exact ⟨List.mem_of_find?_eq_some hfound, by simpa using List.find?_some hfound⟩
  · rintro ⟨hmember, rfl⟩
    cases hfound : model.fetchClass? id (model.className member) with
    | none =>
        have hnone := List.find?_eq_none.mp hfound member hmember
        simp at hnone
    | some first =>
        have hname : model.className first = model.className member := by
          simpa using List.find?_some hfound
        rw [hpartitioned.eq_of_className_eq (List.mem_of_find?_eq_some hfound)
          hmember hname]

/-! ## What keeps the partition -/

theorem Partitioned.empty : Partitioned {} where
  owner_known := by simp
  mem_iff := by simp
  nodup := by
    intro id
    rw [classesOf_of_not_mem (by simp)]
    exact List.nodup_nil
  differ := by
    intro id left hleft
    rw [classesOf_of_not_mem (by simp)] at hleft
    cases hleft
  numbered := by simp

/-- The partition depends on the parcels and the classes alone. -/
theorem Partitioned.congr (hpartitioned : model.Partitioned)
    (hparcels : other.parcels = model.parcels)
    (hclasses : other.classes = model.classes) : other.Partitioned := by
  obtain ⟨parcels, classes, links, checks, host, warnings⟩ := other
  obtain rfl : parcels = model.parcels := hparcels
  obtain rfl : classes = model.classes := hclasses
  exact ⟨hpartitioned.owner_known, hpartitioned.mem_iff, hpartitioned.nodup,
    hpartitioned.differ, hpartitioned.numbered⟩

/-- A parcel may list its classes in another order. -/
theorem Partitioned.setClasses {id : ParcelId} {classes : List ClassId}
    (hpartitioned : model.Partitioned)
    (hperm : classes.Perm (model.classesOf id)) :
    (model.setClasses id classes).Partitioned := by
  have hids : (model.setClasses id classes).parcelIds = model.parcelIds :=
    parcelIds_congr (specs_setClasses model id classes)
  have hlist : ∀ known, ((model.setClasses id classes).classesOf known).Perm
      (model.classesOf known) := by
    intro known
    by_cases hsame : known = id
    · subst hsame
      by_cases hknown : known ∈ model.parcelIds
      · rw [classesOf_setClasses_self hknown]
        exact hperm
      · rw [classesOf_of_not_mem (hids ▸ hknown), classesOf_of_not_mem hknown]
    · rw [classesOf_setClasses_of_ne hsame]
  refine ⟨?_, ?_, ?_, ?_, hpartitioned.numbered⟩
  · rw [hids]
    exact hpartitioned.owner_known
  · rw [hids]
    intro known hknown member
    rw [(hlist known).mem_iff]
    exact hpartitioned.mem_iff known hknown member
  · exact fun known => (hlist known).nodup_iff.mpr (hpartitioned.nodup known)
  · intro known left hleft right hright
    exact hpartitioned.differ known left ((hlist known).mem_iff.mp hleft) right
      ((hlist known).mem_iff.mp hright)

/-! ## Declarations -/

/-- The id of the next class. -/
def nextClassId (model : Model) : ClassId :=
  ⟨model.classes.size⟩

/-- The parcel takes a class of this header. -/
structure Accepts (model : Model) (id : ParcelId) (header : ClassHeader) : Prop where
  wellFormed : header.WellFormed
  differ : ∀ member ∈ model.classesOf id,
    clash? (model.classAt member) (header.inParcel id model.nextClassId) = none

/-- What the declaration of a class in the parcel `id` changes. -/
structure Declares (model other : Model) (id : ParcelId) (added : Class) : Prop where
  id_eq : added.id = model.nextClassId
  parcel_eq : added.parcel = id
  specs_eq : other.specs = model.specs
  classes_eq : other.classes = model.classes.push added
  links_eq : other.links = model.links
  checks_eq : other.checks = model.checks
  self : other.classesOf id = model.classesOf id ++ [model.nextClassId]
  rest : ∀ known, known ≠ id → other.classesOf known = model.classesOf known
  differ : ∀ member ∈ model.classesOf id,
    clash? (model.classAt member) added = none

/-- A declaration goes through if the parcel accepts the class.  If it is refused,
the model stays as it is. -/
theorem declareClass_ends (model : Model) (id : ParcelId) (header : ClassHeader) :
    Ends (declareClass id header model)
      (fun newId after => newId = model.nextClassId ∧ model.Accepts id header ∧
        after = { model.setClasses id (model.classesOf id ++ [model.nextClassId]) with
          classes := model.classes.push (header.inParcel id model.nextClassId) })
      (fun _ after => after = model ∧ ¬ model.Accepts id header) := by
  unfold declareClass
  rw [bind_get]
  cases hmake : Class.make ⟨model.classes.size⟩ id header with
  | error malformed =>
      refine ⟨rfl, fun haccepts => ?_⟩
      have hmade := ClassHeader.make_eq_ok_iff.mpr
        ⟨haccepts.wellFormed, (rfl : header.inParcel id ⟨model.classes.size⟩ = _)⟩
      cases hmake.symm.trans hmade
  | ok added =>
      obtain ⟨hwellFormed, rfl⟩ := ClassHeader.make_eq_ok_iff.mp hmake
      dsimp only
      cases hclash : (model.classesOf id).findSome? fun member =>
          clash? (model.classAt member) (header.inParcel id ⟨model.classes.size⟩) with
      | some error =>
          refine ⟨rfl, fun haccepts => ?_⟩
          cases hclash.symm.trans (List.findSome?_eq_none_iff.mpr haccepts.differ)
      | none => exact ⟨rfl, ⟨hwellFormed, List.findSome?_eq_none_iff.mp hclash⟩, rfl⟩

/-- A declaration is an addition to the model or an error and nothing else. -/
theorem declareClass_eq (model : Model) (id : ParcelId) (header : ClassHeader) :
    declareClass id header model =
      match model.addClass id header with
      | .ok (newId, after) => .ok newId after
      | .error error => .error error model := by
  have hends := declareClass_ends model id header
  unfold addClass
  cases hrun : declareClass id header model with
  | ok newId after => rfl
  | error error after =>
      rw [hrun] at hends
      obtain ⟨rfl, -⟩ := hends
      rfl

theorem addClass_eq_ok {id : ParcelId} {header : ClassHeader} {newId : ClassId}
    (hid : id ∈ model.parcelIds)
    (hadd : model.addClass id header = .ok (newId, other)) :
    newId = model.nextClassId ∧ header.WellFormed ∧
      Declares model other id (header.inParcel id model.nextClassId) := by
  have hends := declareClass_ends model id header
  rw [declareClass_eq, hadd] at hends
  obtain ⟨hnew, haccepts, rfl⟩ := hends
  refine ⟨hnew, haccepts.wellFormed, ?_⟩
  exact
    { id_eq := rfl
      parcel_eq := rfl
      specs_eq := specs_setClasses model id _
      classes_eq := rfl
      links_eq := rfl
      checks_eq := rfl
      self := classesOf_setClasses_self hid _
      rest := fun known hne => classesOf_setClasses_of_ne hne _
      differ := haccepts.differ }

theorem addClass_ne_error {id : ParcelId} {header : ClassHeader} {error : Error}
    (haccepts : model.Accepts id header) : model.addClass id header ≠ .error error := by
  have hends := declareClass_ends model id header
  intro hfails
  rw [declareClass_eq, hfails] at hends
  exact hends.2 haccepts

namespace Declares

variable {id : ParcelId} {added : Class} (hdeclares : Declares model other id added)

include hdeclares

theorem classAt_eq {member : ClassId} (hmember : member ∈ model.classIds) :
    other.classAt member = model.classAt member := by
  have hindex : member.index < model.classes.size := mem_classIds.mp hmember
  simp [classAt, hdeclares.classes_eq, Array.getD_eq_getD_getElem?,
    Array.getElem?_push, hindex, Nat.ne_of_lt hindex]

theorem owner_eq {member : ClassId} (hmember : member ∈ model.classIds) :
    other.owner member = model.owner member := by
  rw [owner, owner, hdeclares.classAt_eq hmember]

theorem classAt_new : other.classAt model.nextClassId = added := by
  simp [classAt, nextClassId, hdeclares.classes_eq, Array.getD_eq_getD_getElem?]

theorem owner_new : other.owner model.nextClassId = id := by
  rw [owner, hdeclares.classAt_new, hdeclares.parcel_eq]

theorem classIds_eq : other.classIds = model.classIds ++ [model.nextClassId] := by
  rw [classIds, classIds, hdeclares.classes_eq, Array.size_push, List.range_succ]
  simp [nextClassId]

theorem mem_classIds_iff {member : ClassId} :
    member ∈ other.classIds ↔
      member ∈ model.classIds ∨ member = model.nextClassId := by
  rw [hdeclares.classIds_eq, List.mem_append, List.mem_singleton]

theorem mem_classesOf_iff {known : ParcelId} {member : ClassId} :
    member ∈ other.classesOf known ↔ member ∈ model.classesOf known ∨
      known = id ∧ member = model.nextClassId := by
  by_cases hsame : known = id
  · subst hsame
    simp [hdeclares.self]
  · simp [hdeclares.rest known hsame, hsame]

end Declares

theorem nextClassId_not_mem (model : Model) : model.nextClassId ∉ model.classIds := by
  simp [nextClassId]

/-- A declared class joins the list of its parcel. -/
theorem Partitioned.declares {id : ParcelId} {added : Class}
    (hpartitioned : model.Partitioned) (hid : id ∈ model.parcelIds)
    (hdeclares : Declares model other id added) : other.Partitioned := by
  have hids : other.parcelIds = model.parcelIds := parcelIds_congr hdeclares.specs_eq
  refine ⟨?_, ?_, ?_, ?_, ?_⟩
  · intro member hmember
    rw [hids]
    rcases hdeclares.mem_classIds_iff.mp hmember with hold | rfl
    · rw [hdeclares.owner_eq hold]
      exact hpartitioned.owner_known member hold
    · rwa [hdeclares.owner_new]
  · intro known hknown member
    have hbefore := hpartitioned.mem_iff known (hids ▸ hknown) member
    rw [hdeclares.mem_classesOf_iff, hdeclares.mem_classIds_iff, hbefore]
    by_cases hnew : member = model.nextClassId
    · subst hnew
      simp [model.nextClassId_not_mem, hdeclares.owner_new, eq_comm]
    · have howner : member ∈ model.classIds →
          (other.owner member = known ↔ model.owner member = known) := fun hold => by
        rw [hdeclares.owner_eq hold]
      simp only [hnew, and_false, or_false]
      exact and_congr_right fun hold => (howner hold).symm
  · intro known
    by_cases hsame : known = id
    · subst hsame
      rw [hdeclares.self]
      refine List.nodup_append.mpr ⟨hpartitioned.nodup known, by simp, ?_⟩
      rintro member hmember _ hlast rfl
      obtain rfl := List.mem_singleton.mp hlast
      exact model.nextClassId_not_mem (hpartitioned.mem_classIds_of_mem hmember)
    · rw [hdeclares.rest known hsame]
      exact hpartitioned.nodup known
  · intro known left hleft right hright hne
    have hat : ∀ {member}, member ∈ model.classesOf known →
        other.classAt member = model.classAt member := fun hmember =>
      hdeclares.classAt_eq (hpartitioned.mem_classIds_of_mem hmember)
    rcases hdeclares.mem_classesOf_iff.mp hleft with hleft | ⟨rfl, rfl⟩ <;>
      rcases hdeclares.mem_classesOf_iff.mp hright with hright | ⟨hknown, rfl⟩
    · rw [hat hleft, hat hright]
      exact hpartitioned.differ known left hleft right hright hne
    · subst hknown
      rw [hat hleft, hdeclares.classAt_new]
      exact hdeclares.differ left hleft
    · rw [hat hright, hdeclares.classAt_new, clash?_eq_none_comm]
      exact hdeclares.differ right hright
    · exact absurd rfl hne
  · intro member hmember
    rcases hdeclares.mem_classIds_iff.mp hmember with hold | rfl
    · rw [hdeclares.classAt_eq hold]
      exact hpartitioned.numbered member hold
    · rw [hdeclares.classAt_new, hdeclares.id_eq]

/-- A parcel joins without classes. -/
theorem classesOf_of_joined {parcel : RegisteredParcel}
    (hjoined : other.parcels = model.parcels.push parcel)
    (hempty : parcel.classes = []) (id : ParcelId) :
    other.classesOf id = model.classesOf id := by
  by_cases hid : id ∈ model.parcelIds
  · rw [classesOf, classesOf, parcelAt_of_joined hjoined hid]
  · rw [classesOf_of_not_mem hid]
    by_cases hlast : id = ⟨model.parcels.size⟩
    · subst hlast
      simp [classesOf, parcelAt, hjoined, Array.getD_eq_getD_getElem?, hempty]
    · refine classesOf_of_not_mem fun hmem => ?_
      obtain ⟨index⟩ := id
      simp only [mem_parcelIds, hjoined, Array.size_push, ParcelId.mk.injEq]
        at hid hmem hlast
      omega

/-- A parcel that joins lists no classes yet. -/
theorem Partitioned.register {parcel : Parcel} {newId : ParcelId}
    (hpartitioned : model.Partitioned)
    (hregister : model.register parcel = .ok (newId, other)) :
    other.Partitioned := by
  obtain ⟨rfl, hother, _, _⟩ := register_eq_ok hregister
  have hjoined : other.parcels = model.parcels.push { parcel with } := by
    rw [hother]
  have hclasses : other.classes = model.classes := by rw [hother]
  have hlists := classesOf_of_joined hjoined rfl
  have hids : other.classIds = model.classIds := by
    rw [classIds, classIds, hclasses]
  refine ⟨?_, ?_, ?_, ?_, ?_⟩
  · intro member hmember
    rw [owner_congr hclasses]
    exact mem_parcelIds_of_joined hjoined
      (hpartitioned.owner_known member (hids ▸ hmember))
  · intro id _ member
    rw [hids, owner_congr hclasses, hlists]
    refine ⟨fun hmember => ⟨hpartitioned.mem_classIds_of_mem hmember,
      hpartitioned.owner_of_mem hmember⟩, ?_⟩
    rintro ⟨hmember, rfl⟩
    exact hpartitioned.mem_classesOf_owner hmember
  · intro id
    rw [hlists]
    exact hpartitioned.nodup id
  · intro id
    rw [hlists, classAt_congr hclasses]
    exact hpartitioned.differ id
  · rw [hids, classAt_congr hclasses]
    exact hpartitioned.numbered

end Parcels.Model
