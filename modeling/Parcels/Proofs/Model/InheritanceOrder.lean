import Parcels.Proofs.Graph.Preorder
import Parcels.Proofs.Model.Links
import Parcels.Proofs.Sorting

/-!
# The order of a parcel's classes

The links between classes of one parcel form a forest.  When the walk from its
roots meets as many classes as the parcel has, it met each of them once, and
what it lists is the preorder of that forest, roots and siblings by name.
-/

namespace Parcels.Model

open Parcels.Graph

variable {model : Model} {id : ParcelId}

/-- The link from `child` to `parent` joins two classes of the parcel. -/
structure ParentWithin (model : Model) (id : ParcelId) (parent child : ClassId) :
    Prop where
  linked : model.parent? child = some parent
  parent_owned : model.owner parent = id
  child_owned : model.owner child = id

/-- A list of classes of a parcel is the preorder of the forest that the links
within the parcel form.  Names are in the order of their code points, which is
the order of their bytes in UTF-8. -/
structure InPreorder (model : Model) (id : ParcelId) (order : List ClassId) :
    Prop where
  parents_first : ∀ {parent child}, child ∈ order →
    model.ParentWithin id parent child → Precedes order parent child
  /-- The classes below a class, and no others, stand right behind it. -/
  blocks : ∀ member ∈ order, ∃ before below after,
    order = before ++ member :: below ++ after ∧
      ∀ other, other ∈ below ↔
        Relation.TransGen (model.ParentWithin id) member other
  roots_by_name : ∀ left ∈ order, ∀ right ∈ order,
    model.startsSubtree id left → model.startsSubtree id right →
      (Precedes order left right ↔ model.className left < model.className right)
  siblings_by_name : ∀ left ∈ order, ∀ right ∈ order, ∀ parent,
    model.parent? left = some parent → model.parent? right = some parent →
      (Precedes order left right ↔ model.className left < model.className right)

/-! ## Sorting by name -/

theorem sortByName_perm (model : Model) (ids : List ClassId) :
    (model.sortByName ids).Perm ids :=
  Sorting.sort_perm _ ids

/-- Sorted by name, classes of one parcel stand in strict order. -/
theorem Partitioned.pairwise_sortByName (hpartitioned : model.Partitioned)
    {ids : List ClassId} (hnodup : ids.Nodup) (hids : ids ⊆ model.classesOf id) :
    (model.sortByName ids).Pairwise fun left right =>
      model.className left < model.className right := by
  have hperm := model.sortByName_perm ids
  have hsorted : (model.sortByName ids).Pairwise fun left right =>
      decide (model.className left ≤ model.className right) = true := by
    refine Sorting.pairwise_sort _ ?_ ?_ ids
    · intro left right
      simpa using String.le_total (model.className left) (model.className right)
    · intro first second third
      simpa using String.le_trans
  have hdistinct : (model.sortByName ids).Pairwise (· ≠ ·) :=
    hperm.nodup_iff.mpr hnodup
  apply (hsorted.and hdistinct).imp_of_mem
  rintro left right hleft hright ⟨hle, hne⟩
  have hle' : model.className left ≤ model.className right := by simpa using hle
  by_contra hnot
  exact hne (hpartitioned.eq_of_className_eq (hids (hperm.subset hleft))
    (hids (hperm.subset hright))
    (String.le_antisymm hle' (String.not_lt.mp hnot)))

/-- Where the classes sorted by name are found one after another, their places
tell their names apart. -/
theorem Partitioned.precedes_iff_className_lt (hpartitioned : model.Partitioned)
    {ids order : List ClassId} (hnodup : ids.Nodup)
    (hids : ids ⊆ model.classesOf id) (horder : order.Nodup)
    (hsublist : (model.sortByName ids).Sublist order) {left right : ClassId}
    (hleft : left ∈ ids) (hright : right ∈ ids) :
    Precedes order left right ↔ model.className left < model.className right := by
  have hperm := model.sortByName_perm ids
  have hleft' : left ∈ model.sortByName ids := hperm.symm.subset hleft
  have hright' : right ∈ model.sortByName ids := hperm.symm.subset hright
  calc
    Precedes order left right ↔ Precedes (model.sortByName ids) left right :=
      Precedes.iff_of_sublist horder hsublist hleft' hright'
    _ ↔ model.className left < model.className right :=
      Precedes.iff_of_pairwise (hpartitioned.pairwise_sortByName hnodup hids)
        (fun _ _ hforward hback => String.lt_irrefl _ (String.lt_trans hforward hback))
        hleft' hright'

/-! ## The forest -/

theorem SoundlyLinked.mem_childrenWithin (hsound : model.SoundlyLinked)
    {parent child : ClassId} :
    child ∈ model.childrenWithin id parent ↔
      model.parent? child = some parent ∧ model.owner child = id := by
  rw [childrenWithin, (model.sortByName_perm _).mem_iff, List.mem_filter,
    mem_children_iff hsound.once]
  simp

theorem SoundlyLinked.forest (hsound : model.SoundlyLinked) (id : ParcelId) :
    Forest (model.childrenWithin id) where
  unique := by
    intro left right node hleft hright
    have hparent := (hsound.mem_childrenWithin.mp hleft).1
    rw [(hsound.mem_childrenWithin.mp hright).1] at hparent
    exact (Option.some.inj hparent).symm
  nodup := fun parent => (model.sortByName_perm _).nodup_iff.mpr
    ((nodup_children hsound.once parent).filter _)

theorem SoundlyLinked.childrenWithin_subset (hsound : model.SoundlyLinked)
    (id : ParcelId) (parent : ClassId) :
    model.childrenWithin id parent ⊆ model.classIds := fun _ hchild =>
  (hsound.known _ (mem_links_of_parent? (hsound.mem_childrenWithin.mp hchild).1)).1

/-- Below a class of the parcel, the forest is made of the links within the
parcel. -/
theorem SoundlyLinked.reachesBeyond_iff (hsound : model.SoundlyLinked)
    {member other : ClassId} (howner : model.owner member = id) :
    ReachesBeyond (model.childrenWithin id) member other ↔
      Relation.TransGen (model.ParentWithin id) member other := by
  have hedge : ∀ {parent child}, model.owner parent = id →
      (Edge (model.childrenWithin id) parent child ↔
        model.ParentWithin id parent child) := by
    intro parent child hparent
    exact hsound.mem_childrenWithin.trans
      ⟨fun hchild => ⟨hchild.1, hparent, hchild.2⟩,
        fun hlink => ⟨hlink.linked, hlink.child_owned⟩⟩
  constructor
  · intro hpath
    induction hpath using Relation.TransGen.head_induction_on with
    | single hlast => exact .single ((hedge howner).mp hlast)
    | head hfirst _ ih =>
        exact .head ((hedge howner).mp hfirst)
          (ih (hsound.mem_childrenWithin.mp hfirst).2)
  · refine Relation.TransGen.mono ?_ member other
    exact fun parent child hlink => (hedge hlink.parent_owned).mpr hlink

theorem SoundlyLinked.reaches_iff (hsound : model.SoundlyLinked)
    {member other : ClassId} (howner : model.owner member = id) :
    Reaches (model.childrenWithin id) member other ↔
      Relation.ReflTransGen (model.ParentWithin id) member other := by
  simp only [Reaches, Relation.reflTransGen_iff_eq_or_transGen,
    ← hsound.reachesBeyond_iff howner]

/-- The roots of the parcel's forest, in the order of the walk. -/
def subtreeRoots (model : Model) (id : ParcelId) : List ClassId :=
  model.sortByName ((model.classesOf id).filter (model.startsSubtree id))

theorem mem_subtreeRoots {root : ClassId} :
    root ∈ model.subtreeRoots id ↔
      root ∈ model.classesOf id ∧ model.startsSubtree id root := by
  rw [subtreeRoots, (model.sortByName_perm _).mem_iff, List.mem_filter]

theorem startsSubtree_iff {member : ClassId} :
    model.startsSubtree id member ↔
      ∀ parent, model.parent? member = some parent → model.owner parent ≠ id := by
  simp [startsSubtree, Option.all_eq_true]

section Walk

variable (hpartitioned : model.Partitioned) (hsound : model.SoundlyLinked)

include hpartitioned hsound

/-- The walk stays among the classes of the parcel. -/
theorem mem_classesOf_of_reaches {root below : ClassId}
    (hroot : root ∈ model.classesOf id)
    (hpath : Reaches (model.childrenWithin id) root below) :
    below ∈ model.classesOf id := by
  refine hpath.within (· ∈ model.classesOf id) ?_ hroot
  intro parent _ child hchild
  obtain ⟨_, rfl⟩ := hsound.mem_childrenWithin.mp hchild
  exact hpartitioned.mem_classesOf_owner (hsound.childrenWithin_subset _ parent hchild)

theorem apart_subtreeRoots :
    Apart (model.childrenWithin id) (model.subtreeRoots id) := by
  intro left hleft right hright hbeyond
  obtain ⟨before, hpath, hlast⟩ := Relation.TransGen.tail'_iff.mp hbeyond
  have hbefore := mem_classesOf_of_reaches hpartitioned hsound
    (mem_subtreeRoots.mp hleft).1 hpath
  exact startsSubtree_iff.mp (mem_subtreeRoots.mp hright).2 before
    (hsound.mem_childrenWithin.mp hlast).1 (hpartitioned.owner_of_mem hbefore)

theorem withinDepth_of_root {root : ClassId} (hroot : root ∈ model.subtreeRoots id) :
    WithinDepth (model.childrenWithin id) model.classes.size root := by
  refine WithinDepth.of_acyclic model.classIds
    (fun parent _ => hsound.childrenWithin_subset id parent) ?_
    (hpartitioned.mem_classIds_of_mem (mem_subtreeRoots.mp hroot).1) (by simp)
  exact fun below hpath => (apart_subtreeRoots hpartitioned hsound).not_onCycle
    (hsound.forest id) hroot hpath

theorem nodup_inheritanceOrder : (model.inheritanceOrder id).Nodup := by
  refine (hsound.forest id).nodup_preorders ?_
    (apart_subtreeRoots hpartitioned hsound)
  exact (model.sortByName_perm _).nodup_iff.mpr
    ((hpartitioned.nodup id).filter _)

theorem inheritanceOrder_subset :
    model.inheritanceOrder id ⊆ model.classesOf id := by
  intro member hmember
  obtain ⟨root, hroot, hbelow⟩ := List.mem_flatMap.mp hmember
  exact mem_classesOf_of_reaches hpartitioned hsound (mem_subtreeRoots.mp hroot).1
    (reaches_of_mem_preorder hbelow)

/-- The walk meets each class of the parcel once if it meets that many. -/
theorem inheritanceOrder_perm
    (hlength : (model.inheritanceOrder id).length = (model.classesOf id).length) :
    (model.inheritanceOrder id).Perm (model.classesOf id) :=
  (List.subperm_of_subset (nodup_inheritanceOrder hpartitioned hsound)
    (inheritanceOrder_subset hpartitioned hsound)).perm_of_length_le hlength.ge

/-- The walk lists a class right before what lies below it. -/
theorem preorder_of_mem_inheritanceOrder {member : ClassId}
    (hmember : member ∈ model.inheritanceOrder id) :
    WithinDepth (model.childrenWithin id) model.classes.size member ∧
      Graph.preorder (model.childrenWithin id) model.classes.size member <:+:
        model.inheritanceOrder id := by
  obtain ⟨root, hroot, hbelow⟩ := List.mem_flatMap.mp hmember
  have hdepth := withinDepth_of_root hpartitioned hsound hroot
  have hpath := reaches_of_mem_preorder hbelow
  exact ⟨hdepth.of_reaches hpath,
    (infix_preorder_of_reaches hdepth hpath).trans (infix_preorders_of_mem hroot)⟩

theorem inheritanceOrder_blocks {member : ClassId}
    (hmember : member ∈ model.inheritanceOrder id) :
    ∃ before below after,
      model.inheritanceOrder id = before ++ member :: below ++ after ∧
        ∀ other, other ∈ below ↔
          Relation.TransGen (model.ParentWithin id) member other := by
  obtain ⟨hdepth, before, after, hsplit⟩ :=
    preorder_of_mem_inheritanceOrder hpartitioned hsound hmember
  obtain ⟨below, hpreorder, hbelow⟩ := preorder_eq_cons hdepth
  rw [hpreorder] at hsplit
  have hnodup : (model.inheritanceOrder id).Nodup :=
    nodup_inheritanceOrder hpartitioned hsound
  rw [← hsplit] at hnodup
  have hnot : member ∉ below :=
    (List.nodup_cons.mp hnodup.of_append_left.of_append_right).1
  have howner := hpartitioned.owner_of_mem
    (inheritanceOrder_subset hpartitioned hsound hmember)
  refine ⟨before, below, after, hsplit.symm, fun other => ?_⟩
  rw [← hsound.reachesBeyond_iff howner]
  refine ⟨fun hother => ?_, hbelow other⟩
  have hpath : Reaches (model.childrenWithin id) member other :=
    reaches_of_mem_preorder (hpreorder ▸ List.mem_cons_of_mem _ hother)
  rcases Relation.reflTransGen_iff_eq_or_transGen.mp hpath with rfl | hbeyond
  · exact absurd hother hnot
  · exact hbeyond

theorem inheritanceOrder_roots_by_name {left right : ClassId}
    (hleft : left ∈ model.subtreeRoots id) (hright : right ∈ model.subtreeRoots id) :
    Precedes (model.inheritanceOrder id) left right ↔
      model.className left < model.className right := by
  have hperm := model.sortByName_perm
    ((model.classesOf id).filter (model.startsSubtree id))
  exact hpartitioned.precedes_iff_className_lt ((hpartitioned.nodup id).filter _)
    (List.filter_subset_self _) (nodup_inheritanceOrder hpartitioned hsound)
    (sublist_preorders fun root hroot =>
      withinDepth_of_root hpartitioned hsound hroot)
    (hperm.subset hleft) (hperm.subset hright)

theorem inheritanceOrder_siblings_by_name {parent left right : ClassId}
    (hparent : parent ∈ model.inheritanceOrder id)
    (hleft : left ∈ model.childrenWithin id parent)
    (hright : right ∈ model.childrenWithin id parent) :
    Precedes (model.inheritanceOrder id) left right ↔
      model.className left < model.className right := by
  obtain ⟨hdepth, hinfix⟩ :=
    preorder_of_mem_inheritanceOrder hpartitioned hsound hparent
  have hperm := model.sortByName_perm
    ((model.children parent).filter fun child => model.owner child == id)
  refine hpartitioned.precedes_iff_className_lt
    ((nodup_children hsound.once parent).filter _) (?_ : _ ⊆ model.classesOf id)
    (nodup_inheritanceOrder hpartitioned hsound)
    ((successors_sublist_preorder hdepth).trans hinfix.sublist)
    (hperm.subset hleft) (hperm.subset hright)
  intro child hchild
  exact mem_classesOf_of_reaches hpartitioned hsound
    (inheritanceOrder_subset hpartitioned hsound hparent)
    (.single (hperm.symm.subset hchild))

theorem inPreorder_inheritanceOrder
    (hperm : (model.inheritanceOrder id).Perm (model.classesOf id)) :
    model.InPreorder id (model.inheritanceOrder id) := by
  have howned : ∀ member, member ∈ model.inheritanceOrder id ↔
      member ∈ model.classIds ∧ model.owner member = id := by
    intro member
    rw [hperm.mem_iff]
    exact hpartitioned.mem_classesOf_iff
  have hparentKnown : ∀ {child parent}, model.parent? child = some parent →
      parent ∈ model.classIds := fun hparent =>
    (hsound.known _ (mem_links_of_parent? hparent)).2
  have hroots : ∀ left ∈ model.inheritanceOrder id,
      ∀ right ∈ model.inheritanceOrder id, model.startsSubtree id left →
        model.startsSubtree id right →
        (Precedes (model.inheritanceOrder id) left right ↔
          model.className left < model.className right) := by
    intro left hleft right hright hleftRoot hrightRoot
    exact inheritanceOrder_roots_by_name hpartitioned hsound
      (mem_subtreeRoots.mpr ⟨hperm.subset hleft, hleftRoot⟩)
      (mem_subtreeRoots.mpr ⟨hperm.subset hright, hrightRoot⟩)
  refine ⟨?_, fun _ => inheritanceOrder_blocks hpartitioned hsound, hroots, ?_⟩
  · intro parent child hchild hlink
    have hparent : parent ∈ model.inheritanceOrder id :=
      (howned parent).mpr ⟨hparentKnown hlink.linked, hlink.parent_owned⟩
    obtain ⟨before, below, after, hsplit, hbelow⟩ :=
      inheritanceOrder_blocks hpartitioned hsound hparent
    have hchildBelow : child ∈ below := (hbelow child).mpr (.single hlink)
    have hblock : Precedes (before ++ [parent] ++ below) parent child :=
      Precedes.of_mem_append (by simp) hchildBelow
    rw [hsplit]
    simpa using hblock.append_right after
  · intro left hleft right hright parent hleftParent hrightParent
    by_cases howner : model.owner parent = id
    · exact inheritanceOrder_siblings_by_name hpartitioned hsound
        ((howned parent).mpr ⟨hparentKnown hleftParent, howner⟩)
        (hsound.mem_childrenWithin.mpr ⟨hleftParent, ((howned left).mp hleft).2⟩)
        (hsound.mem_childrenWithin.mpr ⟨hrightParent, ((howned right).mp hright).2⟩)
    · refine hroots left hleft right hright ?_ ?_
      · exact startsSubtree_iff.mpr fun other hother => by
          rw [hleftParent] at hother
          exact Option.some.inj hother ▸ howner
      · exact startsSubtree_iff.mpr fun other hother => by
          rw [hrightParent] at hother
          exact Option.some.inj hother ▸ howner

end Walk

/-- What a preorder is depends on the classes and the links alone. -/
theorem InPreorder.congr {other : Model} {order : List ClassId}
    (horder : model.InPreorder id order) (hclasses : other.classes = model.classes)
    (hlinks : other.links = model.links) : other.InPreorder id order := by
  have hparent : other.parent? = model.parent? := parent?_congr hlinks
  have howner : other.owner = model.owner := owner_congr hclasses
  have hname : other.className = model.className := className_congr hclasses
  have hstarts : other.startsSubtree id = model.startsSubtree id := by
    funext member
    rw [startsSubtree, startsSubtree, hparent, howner]
  have hwithin : other.ParentWithin id = model.ParentWithin id := by
    funext parent child
    refine propext ⟨?_, ?_⟩
    · rintro ⟨hlinked, hparentOwned, hchildOwned⟩
      exact ⟨hparent ▸ hlinked, howner ▸ hparentOwned, howner ▸ hchildOwned⟩
    · rintro ⟨hlinked, hparentOwned, hchildOwned⟩
      exact ⟨hparent ▸ hlinked, howner ▸ hparentOwned, howner ▸ hchildOwned⟩
  refine ⟨?_, ?_, ?_, ?_⟩
  · rw [hwithin]
    exact horder.parents_first
  · rw [hwithin]
    exact horder.blocks
  · rw [hstarts, hname]
    exact horder.roots_by_name
  · rw [hparent, hname]
    exact horder.siblings_by_name

end Parcels.Model
