import Mathlib.Logic.Equiv.Defs
import Parcels.Proofs.Model.Calls

/-!
# Renamed models

Two models may hold the same parcels and classes in different places.  What a
name finds, which parents classes get and how the classes of a parcel are
sorted depends on the names, so it is the same in both but for the places.
-/

namespace Parcels.Model

open Parcels.Graph

/-- `other` holds the parcels and classes of `model`, each in its own place.
The lists of the parcels and the links may differ. -/
structure Renames (parcels : ParcelId ≃ ParcelId) (classes : ClassId ≃ ClassId)
    (model other : Model) : Prop where
  parcel_eq : ∀ id,
    (other.parcelAt (parcels id)).toParcel = (model.parcelAt id).toParcel
  parcel_known : ∀ id, parcels id ∈ other.parcelIds ↔ id ∈ model.parcelIds
  parcels_size : other.parcels.size = model.parcels.size
  class_eq : ∀ id ∈ model.classIds, other.classAt (classes id) =
    { model.classAt id with
      id := classes (model.classAt id).id
      parcel := parcels (model.owner id) }
  class_known : ∀ id, classes id ∈ other.classIds ↔ id ∈ model.classIds
  classes_size : other.classes.size = model.classes.size

/-- The model has the same parents for the classes of a parcel as another. -/
def SameParents (classes : ClassId ≃ ClassId) (model other : Model)
    (id : ParcelId) : Prop :=
  ∀ member ∈ model.classesOf id,
    other.parent? (classes member) = (model.parent? member).map classes

variable {model other : Model}

/-! ## Finding by name -/

/-- A value that is found in both places, or in neither. -/
theorem eq_map_of_iff {Place Place' : Type} (rename : Place ≃ Place')
    {found : Option Place} {found' : Option Place'}
    (hfound : ∀ place, found' = some (rename place) ↔ found = some place) :
    found' = found.map rename := by
  ext place'
  obtain ⟨place, rfl⟩ := rename.surjective place'
  rw [hfound]
  simp

theorem Sound.mem_ownChildren_iff (hsound : model.Sound) {id : ParcelId}
    {parent child : ClassId} :
    child ∈ (model.children parent).filter (fun child => model.owner child == id) ↔
      child ∈ model.classesOf id ∧ model.parent? child = some parent := by
  rw [List.mem_filter, mem_children_iff hsound.linked.once, beq_iff_eq,
    hsound.partitioned.mem_classesOf_iff]
  constructor
  · rintro ⟨hlinked, howner⟩
    have hknown := hsound.linked.known _ (mem_links_of_parent? hlinked)
    exact ⟨⟨hknown.1, howner⟩, hlinked⟩
  · exact fun hchild => ⟨hchild.2, hchild.1.2⟩

namespace Renames

variable {parcels : ParcelId ≃ ParcelId} {classes : ClassId ≃ ClassId}

theorem refl (hspecs : other.specs = model.specs)
    (hclasses : other.classes = model.classes) :
    Renames (.refl ParcelId) (.refl ClassId) model other where
  parcel_eq := toParcel_congr hspecs
  parcel_known := by
    intro id
    rw [Equiv.refl_apply, parcelIds_congr hspecs]
  parcels_size := by rw [← size_specs, hspecs, size_specs]
  class_eq := by
    intro id _
    rw [Equiv.refl_apply, classAt_congr hclasses]
    rfl
  class_known := by
    intro id
    rw [Equiv.refl_apply, classIds, classIds, hclasses]
  classes_size := by rw [hclasses]

/-- Renaming is about the descriptions of the parcels and about the classes. -/
theorem congr {model' other' : Model} (hrenames : Renames parcels classes model other)
    (hspecs : model'.specs = model.specs) (hclasses : model'.classes = model.classes)
    (hspecs' : other'.specs = other.specs)
    (hclasses' : other'.classes = other.classes) :
    Renames parcels classes model' other' where
  parcel_eq := by
    intro id
    rw [toParcel_congr hspecs', toParcel_congr hspecs, hrenames.parcel_eq]
  parcel_known := by
    intro id
    rw [parcelIds_congr hspecs', parcelIds_congr hspecs, hrenames.parcel_known]
  parcels_size := by
    rw [← size_specs, ← size_specs, hspecs', hspecs, size_specs, size_specs,
      hrenames.parcels_size]
  class_eq := by
    intro id hid
    rw [classIds, hclasses] at hid
    rw [classAt_congr hclasses', classAt_congr hclasses, owner_congr hclasses]
    exact hrenames.class_eq id hid
  class_known := by
    intro id
    rw [classIds, classIds, hclasses', hclasses]
    exact hrenames.class_known id
  classes_size := by rw [hclasses', hclasses, hrenames.classes_size]

section Finding

variable (hrenames : Renames parcels classes model other)

include hrenames

theorem owner_eq {member : ClassId} (hmember : member ∈ model.classIds) :
    other.owner (classes member) = parcels (model.owner member) := by
  rw [owner, hrenames.class_eq member hmember]

theorem className_eq {member : ClassId} (hmember : member ∈ model.classIds) :
    other.className (classes member) = model.className member := by
  rw [className, className, hrenames.class_eq member hmember]

theorem distinctNames (hdistinct : model.DistinctNames) : other.DistinctNames := by
  intro left hleft right hright hname
  obtain ⟨left, rfl⟩ := parcels.surjective left
  obtain ⟨right, rfl⟩ := parcels.surjective right
  rw [hrenames.parcel_known] at hleft hright
  rw [hrenames.parcel_eq, hrenames.parcel_eq] at hname
  rw [hdistinct left hleft right hright hname]

variable (hdistinct : model.DistinctNames)

include hdistinct

theorem parcelNamed?_eq (name : String) :
    other.parcelNamed? name = (model.parcelNamed? name).map parcels := by
  apply eq_map_of_iff
  intro id
  rw [parcelNamed?_eq_some_iff (hrenames.distinctNames hdistinct),
    parcelNamed?_eq_some_iff hdistinct, hrenames.parcel_known, hrenames.parcel_eq]

theorem prereqParcels_eq (id : ParcelId) :
    other.prereqParcels (parcels id) = (model.prereqParcels id).map parcels := by
  rw [prereqParcels, prereqParcels, List.map_filterMap, hrenames.parcel_eq]
  simp only [hrenames.parcelNamed?_eq hdistinct]

theorem scope_eq (id : ParcelId) :
    other.scope (parcels id) = (model.scope id).map parcels := by
  rw [scope, scope, hrenames.parcels_size]
  exact breadthFirst_map parcels.injective (hrenames.prereqParcels_eq hdistinct) _ id

end Finding

section Sound

variable (hrenames : Renames parcels classes model other)
  (hsound : model.Sound) (hsound' : other.Sound)

include hrenames hsound hsound'

theorem mem_classesOf_iff {id : ParcelId} {member : ClassId} :
    classes member ∈ other.classesOf (parcels id) ↔ member ∈ model.classesOf id := by
  rw [hsound.partitioned.mem_classesOf_iff, hsound'.partitioned.mem_classesOf_iff,
    hrenames.class_known]
  refine and_congr_right fun hmember => ?_
  rw [hrenames.owner_eq hmember, parcels.injective.eq_iff]

theorem length_classesOf (id : ParcelId) :
    (other.classesOf (parcels id)).length = (model.classesOf id).length := by
  have hperm : (other.classesOf (parcels id)).Perm
      ((model.classesOf id).map classes) := by
    rw [List.perm_ext_iff_of_nodup (hsound'.partitioned.nodup _)
      ((hsound.partitioned.nodup _).map classes.injective)]
    intro member
    obtain ⟨member, rfl⟩ := classes.surjective member
    rw [hrenames.mem_classesOf_iff hsound hsound',
      List.mem_map_of_injective classes.injective]
  exact hperm.length_eq.trans (List.length_map _)

theorem fetchClass?_eq (id : ParcelId) (name : String) :
    other.fetchClass? (parcels id) name = (model.fetchClass? id name).map classes := by
  apply eq_map_of_iff
  intro member
  rw [hsound.partitioned.fetchClass?_eq_some_iff,
    hsound'.partitioned.fetchClass?_eq_some_iff,
    hrenames.mem_classesOf_iff hsound hsound']
  refine and_congr_right fun hmember => ?_
  rw [hrenames.className_eq (hsound.partitioned.mem_classIds_of_mem hmember)]

/-- Sorted by name, the same classes of a parcel stand in the same order. -/
theorem sortByName_eq (id : ParcelId) {members members' : List ClassId}
    (hnodup : members.Nodup) (hnodup' : members'.Nodup)
    (hmembers : members ⊆ model.classesOf id)
    (hsame : ∀ member, classes member ∈ members' ↔ member ∈ members) :
    other.sortByName members' = (model.sortByName members).map classes := by
  have hmembers' : members' ⊆ other.classesOf (parcels id) := by
    intro member hmember
    obtain ⟨member, rfl⟩ := classes.surjective member
    exact (hrenames.mem_classesOf_iff hsound hsound').mpr
      (hmembers ((hsame member).mp hmember))
  have hsorted' := hsound'.partitioned.pairwise_sortByName hnodup' hmembers'
  have hsorted : ((model.sortByName members).map classes).Pairwise
      fun left right => other.className left < other.className right := by
    rw [List.pairwise_map]
    apply (hsound.partitioned.pairwise_sortByName hnodup hmembers).imp_of_mem
    intro left right hleft hright hlt
    have hknown : ∀ member ∈ model.sortByName members, member ∈ model.classIds :=
      fun member hmember => hsound.partitioned.mem_classIds_of_mem
        (hmembers ((model.sortByName_perm members).subset hmember))
    rwa [hrenames.className_eq (hknown left hleft),
      hrenames.className_eq (hknown right hright)]
  apply List.Perm.eq_of_pairwise _ hsorted' hsorted
  · apply (other.sortByName_perm members').trans
    apply List.Perm.trans _ ((model.sortByName_perm members).map classes).symm
    rw [List.perm_ext_iff_of_nodup hnodup' (hnodup.map classes.injective)]
    intro member
    obtain ⟨member, rfl⟩ := classes.surjective member
    rw [hsame, List.mem_map_of_injective classes.injective]
  · intro left right _ _ hforward hback
    exact absurd (String.lt_trans hforward hback) (String.lt_irrefl _)

variable (hdistinct : model.DistinctNames)

include hdistinct

theorem findInScope?_eq (id : ParcelId) (name : String) :
    other.findInScope? (parcels id) name =
      (model.findInScope? id name).map classes := by
  rw [findInScope?, findInScope?, hrenames.scope_eq hdistinct, List.findSome?_map,
    List.map_findSome?]
  congr 1
  funext visible
  exact hrenames.fetchClass?_eq hsound hsound' visible name

theorem declaredParent?_eq (id : ParcelId) {child : ClassId}
    (hchild : child ∈ model.classIds) :
    other.declaredParent? (parcels id) (classes child) =
      (model.declaredParent? id child).map classes := by
  rw [declaredParent?, declaredParent?, hrenames.class_eq child hchild]
  cases (model.classAt child).parentName with
  | none => rfl
  | some name => exact hrenames.findInScope?_eq hsound hsound' hdistinct id name

end Sound

/-! ## Sorting -/

section Parents

variable (hrenames : Renames parcels classes model other)
  (hsound : model.Sound) (hsound' : other.Sound) {id : ParcelId}
  (hparents : SameParents classes model other id)

include hrenames hsound hsound' hparents

theorem childrenWithin_eq (parent : ClassId) :
    other.childrenWithin (parcels id) (classes parent) =
      (model.childrenWithin id parent).map classes := by
  apply hrenames.sortByName_eq hsound hsound' id
  · exact (nodup_children hsound.linked.once parent).filter _
  · exact (nodup_children hsound'.linked.once _).filter _
  · intro child hchild
    exact (hsound.mem_ownChildren_iff.mp hchild).1
  · intro child
    rw [hsound.mem_ownChildren_iff, hsound'.mem_ownChildren_iff,
      hrenames.mem_classesOf_iff hsound hsound']
    refine and_congr_right fun hmember => ?_
    rw [hparents child hmember]
    exact (Option.map_injective classes.injective).eq_iff (b := some parent)

omit hsound' in
theorem startsSubtree_eq {member : ClassId} (hmember : member ∈ model.classesOf id) :
    other.startsSubtree (parcels id) (classes member) =
      model.startsSubtree id member := by
  rw [startsSubtree, startsSubtree, hparents member hmember]
  cases hparent : model.parent? member with
  | none => rfl
  | some parent =>
      have hknown := (hsound.linked.known _ (mem_links_of_parent? hparent)).2
      change (other.owner (classes parent) != parcels id) =
        (model.owner parent != id)
      rw [hrenames.owner_eq hknown, Bool.eq_iff_iff, bne_iff_ne, bne_iff_ne,
        parcels.injective.ne_iff]

theorem subtreeRoots_eq :
    other.subtreeRoots (parcels id) = (model.subtreeRoots id).map classes := by
  apply hrenames.sortByName_eq hsound hsound' id
  · exact (hsound.partitioned.nodup id).filter _
  · exact (hsound'.partitioned.nodup _).filter _
  · exact List.filter_subset_self _
  · intro member
    rw [List.mem_filter, List.mem_filter, hrenames.mem_classesOf_iff hsound hsound']
    refine and_congr_right fun hmember => ?_
    rw [hrenames.startsSubtree_eq hsound hparents hmember]

/-- The classes of a parcel are sorted alike wherever they are. -/
theorem inheritanceOrder_eq :
    other.inheritanceOrder (parcels id) = (model.inheritanceOrder id).map classes := by
  calc other.inheritanceOrder (parcels id)
      = (other.subtreeRoots (parcels id)).flatMap
          (preorder (other.childrenWithin (parcels id)) model.classes.size) := by
        rw [← hrenames.classes_size]
        rfl
    _ = (model.subtreeRoots id).flatMap fun root =>
          (preorder (model.childrenWithin id) model.classes.size root).map classes := by
        rw [hrenames.subtreeRoots_eq hsound hsound' hparents, List.flatMap_map]
        congr 1
        funext root
        exact preorder_map (hrenames.childrenWithin_eq hsound hsound' hparents) _ root
    _ = (model.inheritanceOrder id).map classes := by
        rw [inheritanceOrder, List.map_flatMap]
        rfl

variable (hdistinct : model.DistinctNames)

include hdistinct

theorem prospectiveParent?_eq {child : ClassId} (hchild : child ∈ model.classesOf id) :
    other.prospectiveParent? (parcels id) (classes child) =
      (model.prospectiveParent? id child).map classes := by
  rw [prospectiveParent?, prospectiveParent?, hparents child hchild,
    hrenames.declaredParent?_eq hsound hsound' hdistinct id
      (hsound.partitioned.mem_classIds_of_mem hchild), Option.map_or]

omit hparents in
theorem finds_heritable_iff (name : String) :
    (∃ parent, other.findInScope? (parcels id) name = some parent ∧
        (other.classAt parent).isFinal = false) ↔
      ∃ parent, model.findInScope? id name = some parent ∧
        (model.classAt parent).isFinal = false := by
  rw [hrenames.findInScope?_eq hsound hsound' hdistinct]
  cases hfound : model.findInScope? id name with
  | none => simp
  | some parent =>
      obtain ⟨visible, _, hmember, _⟩ := mem_of_findInScope? hfound
      have hknown := hsound.partitioned.mem_classIds_of_mem hmember
      simp [hrenames.class_eq parent hknown, Class.isFinal]

theorem linkable_iff {child : ClassId} (hchild : child ∈ model.classesOf id) :
    other.Linkable (parcels id) (classes child) ↔ model.Linkable id child := by
  have hknown := hsound.partitioned.mem_classIds_of_mem hchild
  simp only [Linkable, hparents child hchild, Option.map_eq_none_iff,
    hrenames.class_eq child hknown,
    hrenames.finds_heritable_iff hsound hsound' hdistinct]

/-- Every class of the parcel is linkable in both places or in neither. -/
theorem forall_linkable_iff :
    (∀ child ∈ other.classesOf (parcels id), other.Linkable (parcels id) child) ↔
      ∀ child ∈ model.classesOf id, model.Linkable id child := by
  rw [← classes.forall_congr_right]
  refine forall_congr' fun child => ?_
  rw [hrenames.mem_classesOf_iff hsound hsound']
  exact forall_congr' fun hchild =>
    hrenames.linkable_iff hsound hsound' hparents hdistinct hchild

/-- Once its classes are linked, a parcel is sorted alike wherever it is. -/
theorem connected_order_eq
    (hlinkable : ∀ child ∈ model.classesOf id, model.Linkable id child) :
    (other.connected (parcels id)).inheritanceOrder (parcels id) =
      ((model.connected id).inheritanceOrder id).map classes := by
  have hlinkable' := (hrenames.forall_linkable_iff hsound hsound' hparents
    hdistinct).mpr hlinkable
  have hconnected : Renames parcels classes (model.connected id)
      (other.connected (parcels id)) := hrenames.congr rfl rfl rfl rfl
  apply hconnected.inheritanceOrder_eq (hsound.connected hlinkable)
    (hsound'.connected hlinkable')
  intro child hchild
  change child ∈ model.classesOf id at hchild
  rw [connected, connected, parent?_linking, parent?_linking, if_pos hchild, if_pos
    ((hrenames.mem_classesOf_iff hsound hsound').mpr hchild)]
  exact hrenames.prospectiveParent?_eq hsound hsound' hparents hdistinct hchild

/-- A parcel can be connected in both places or in neither. -/
theorem connectable_iff :
    other.Connectable (parcels id) ↔ model.Connectable id := by
  have hlinkable := hrenames.forall_linkable_iff hsound hsound' hparents hdistinct
  rw [Connectable, Connectable, hlinkable]
  refine and_congr_right fun hall => ?_
  rw [hrenames.connected_order_eq hsound hsound' hparents hdistinct hall,
    List.length_map, hrenames.length_classesOf hsound hsound']

end Parents

end Renames

/-! ## Listings -/

/-- A class by its name, with the parcel name and the name of its parent. -/
structure NamedClass where
  name : String
  parent : Option (String × String)
  deriving DecidableEq

/-- The name of a class behind the name of its parcel. -/
def fullName (model : Model) (id : ClassId) : String × String :=
  ((model.parcelAt (model.owner id)).name, model.className id)

/-- The classes of the parcel with that name, in their order. -/
def listing (model : Model) (parcel : String) : Option (List NamedClass) :=
  (model.parcelNamed? parcel).map fun id => (model.classesOf id).map fun member =>
    ⟨model.className member, (model.parent? member).map model.fullName⟩

/-- Where lists and parents are the same but for the places, so are the names
that they hold. -/
theorem Renames.listing_eq {parcels : ParcelId ≃ ParcelId}
    {classes : ClassId ≃ ClassId} (hrenames : Renames parcels classes model other)
    (hsound : model.Sound) (hdistinct : model.DistinctNames)
    (hlists : ∀ id ∈ model.parcelIds,
      other.classesOf (parcels id) = (model.classesOf id).map classes)
    (hparents : ∀ id, SameParents classes model other id) :
    other.listing = model.listing := by
  have hfull : ∀ member ∈ model.classIds,
      other.fullName (classes member) = model.fullName member := by
    intro member hmember
    rw [fullName, fullName, hrenames.owner_eq hmember, hrenames.parcel_eq,
      hrenames.className_eq hmember]
  funext parcel
  rw [listing, listing, hrenames.parcelNamed?_eq hdistinct]
  cases hnamed : model.parcelNamed? parcel with
  | none => rfl
  | some id =>
      simp only [Option.map_some, hlists id (parcelNamed?_eq_some hnamed).1,
        List.map_map]
      congr 1
      apply List.map_congr_left
      intro member hmember
      have hknown := hsound.partitioned.mem_classIds_of_mem hmember
      simp only [Function.comp_apply, hrenames.className_eq hknown,
        hparents id member hmember, Option.map_map]
      congr 1
      cases hparent : model.parent? member with
      | none => rfl
      | some parent =>
          exact congrArg some
            (hfull parent (hsound.linked.known _ (mem_links_of_parent? hparent)).2)

end Parcels.Model
