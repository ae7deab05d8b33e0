import Parcels.Proofs.Graph.StackWalk
import Parcels.Proofs.Model.OrderedClasses
import Parcels.Proofs.Model.PrereqClosure

/-!
# Descendants

Where no class is its own ancestor, the links of all parcels together form a
forest.  A walk with a stack through the children of a class then ends, and it
has met the classes below that class in preorder, siblings in link order.
-/

namespace Parcels.Model

open Parcels.Graph

variable {model : Model} {root member : ClassId}

/-- Going from child to parent, once or more, one gets from the class to the
ancestor. -/
def HasAncestor (model : Model) : ClassId → ClassId → Prop :=
  Relation.TransGen fun child parent => model.parent? child = some parent

/-- A list holds the classes below a class, each once, in preorder. -/
structure ListsDescendants (model : Model) (root : ClassId) (list : List ClassId) : Prop where
  mem_iff : ∀ member, member ∈ list ↔ model.HasAncestor member root
  nodup : list.Nodup
  parents_first : ∀ child ∈ list, ∀ parent, model.parent? child = some parent →
    parent ≠ root → Precedes list parent child
  /-- The classes below a class, and no others, stand right behind it. -/
  blocks : ∀ member ∈ list, ∃ before below after,
    list = before ++ member :: below ++ after ∧
      ∀ other, other ∈ below ↔ model.HasAncestor other member
  siblings_by_link : ∀ left right parent, model.parent? left = some parent →
    model.parent? right = some parent → left ∈ list → right ∈ list →
      (Precedes list left right ↔ Precedes model.links ⟨left, parent⟩ ⟨right, parent⟩)

namespace SoundlyLinked

variable (hlinked : model.SoundlyLinked)

include hlinked

/-! ## The forest of all links -/

theorem edge_children_iff {parent child : ClassId} :
    Edge model.children parent child ↔ model.parent? child = some parent :=
  mem_children_iff hlinked.once

theorem forest_children : Forest model.children where
  unique := by
    intro left right child hleft hright
    have hparent := hlinked.edge_children_iff.mp hleft
    rw [hlinked.edge_children_iff.mp hright] at hparent
    exact (Option.some.inj hparent).symm
  nodup := nodup_children hlinked.once

theorem children_subset (parent : ClassId) : model.children parent ⊆ model.classIds :=
  fun _ hchild =>
    (hlinked.known _ (mem_links_of_parent? (hlinked.edge_children_iff.mp hchild))).1

theorem reachesBeyond_children_iff {ancestor : ClassId} :
    ReachesBeyond model.children ancestor member ↔ model.HasAncestor member ancestor := by
  have hedge : Function.swap (Edge model.children) =
      fun child parent => model.parent? child = some parent := by
    funext child parent
    exact propext hlinked.edge_children_iff
  rw [HasAncestor, ← hedge]
  exact Relation.transGen_swap.symm

/-- The children of a class stand in the order in which they were linked. -/
theorem precedes_children_iff {left right parent : ClassId}
    (hleft : model.parent? left = some parent) (hright : model.parent? right = some parent) :
    Precedes (model.children parent) left right ↔
      Precedes model.links ⟨left, parent⟩ ⟨right, parent⟩ := by
  let links := model.links.filter fun link => link.parent == parent
  have hmem : ∀ {child}, model.parent? child = some parent → ⟨child, parent⟩ ∈ links :=
    fun hparent => List.mem_filter.mpr ⟨mem_links_of_parent? hparent, beq_self_eq_true parent⟩
  have hlinks : (model.children parent).map (fun child => Link.mk child parent) = links := by
    rw [children, List.map_map]
    refine (List.map_congr_left fun link hlink => ?_).trans (List.map_id links)
    obtain rfl := beq_iff_eq.mp (List.mem_filter.mp hlink).2
    rfl
  calc
    Precedes (model.children parent) left right ↔
        Precedes links ⟨left, parent⟩ ⟨right, parent⟩ :=
      ⟨fun hprecedes => hlinks ▸ hprecedes.map fun child => Link.mk child parent,
        Precedes.map Link.child⟩
    _ ↔ Precedes model.links ⟨left, parent⟩ ⟨right, parent⟩ :=
      (Precedes.iff_of_sublist hlinked.once.of_map List.filter_sublist (hmem hleft)
        (hmem hright)).symm

variable (hacyclic : model.AncestryAcyclic)

include hacyclic

theorem not_onCycle_children (id : ClassId) : ¬ OnCycle model.children id := fun hcycle =>
  hacyclic id (hlinked.reachesBeyond_children_iff.mp hcycle)

theorem withinDepth_children (hmember : member ∈ model.classIds) :
    WithinDepth model.children model.classes.size member :=
  WithinDepth.of_acyclic model.classIds (fun parent _ => hlinked.children_subset parent)
    (fun below _ => hlinked.not_onCycle_children hacyclic below) hmember
    (model.length_classIds).le

theorem withinDepth_of_child {child : ClassId} (hchild : child ∈ model.children root) :
    WithinDepth model.children model.classes.size child :=
  hlinked.withinDepth_children hacyclic (hlinked.children_subset root hchild)

/-! ## What the walk meets -/

theorem meets_descendants (root : ClassId) :
    StackWalk.Meets model.children (model.children root) (model.descendants root) :=
  StackWalk.meets_preorders fun _ hchild => hlinked.withinDepth_of_child hacyclic hchild

theorem mem_descendants_iff : member ∈ model.descendants root ↔ model.HasAncestor member root := by
  rw [← hlinked.reachesBeyond_children_iff]
  constructor
  · intro hmember
    obtain ⟨child, hchild, hbelow⟩ := List.mem_flatMap.mp hmember
    exact Relation.TransGen.head' hchild (reaches_of_mem_preorder hbelow)
  · intro hbeyond
    obtain ⟨child, hchild, hpath⟩ := Relation.TransGen.head'_iff.mp hbeyond
    exact List.mem_flatMap.mpr ⟨child, hchild,
      mem_preorder_of_reaches (hlinked.withinDepth_of_child hacyclic hchild) hpath⟩

theorem nodup_descendants (root : ClassId) : (model.descendants root).Nodup :=
  hlinked.forest_children.nodup_preorders (nodup_children hlinked.once root)
    (hlinked.forest_children.apart_successors (hlinked.not_onCycle_children hacyclic root))

/-- A class that is met comes with all its descendants right behind it. -/
theorem infix_descendants (hmember : member ∈ model.descendants root) :
    member :: model.descendants member <:+: model.descendants root := by
  obtain ⟨child, hchild, hbelow⟩ := List.mem_flatMap.mp hmember
  have hdepth := hlinked.withinDepth_of_child hacyclic hchild
  have hpath : Reaches model.children child member := reaches_of_mem_preorder hbelow
  have hblock : member :: model.descendants member =
      preorder model.children model.classes.size member :=
    preorder_succ (hdepth.of_reaches hpath)
  rw [hblock]
  exact (infix_preorder_of_reaches hdepth hpath).trans (infix_preorders_of_mem hchild)

theorem children_sublist_descendants (root : ClassId) :
    (model.children root).Sublist (model.descendants root) :=
  sublist_preorders fun _ hchild => hlinked.withinDepth_of_child hacyclic hchild

/-- Siblings below a class are met one after another, whatever lies between
them. -/
theorem siblings_sublist_descendants {parent : ClassId}
    (hparent : parent = root ∨ parent ∈ model.descendants root) :
    (model.children parent).Sublist (model.descendants root) := by
  rcases hparent with rfl | hbelow
  · exact hlinked.children_sublist_descendants hacyclic parent
  · have hblock := (hlinked.infix_descendants hacyclic hbelow).sublist
    exact ((hlinked.children_sublist_descendants hacyclic parent).cons parent).trans hblock

theorem parent_met {child parent : ClassId} (hchild : child ∈ model.descendants root)
    (hparent : model.parent? child = some parent) :
    parent = root ∨ parent ∈ model.descendants root := by
  rw [hlinked.mem_descendants_iff hacyclic] at hchild ⊢
  obtain ⟨next, hnext, hrest⟩ := Relation.TransGen.head'_iff.mp hchild
  obtain rfl := Option.some.inj (hparent.symm.trans hnext)
  exact (Relation.reflTransGen_iff_eq_or_transGen.mp hrest).imp_left Eq.symm

theorem listsDescendants (root : ClassId) :
    model.ListsDescendants root (model.descendants root) where
  mem_iff _ := hlinked.mem_descendants_iff hacyclic
  nodup := hlinked.nodup_descendants hacyclic root
  parents_first child hchild parent hparent hne := by
    have hmet := (hlinked.parent_met hacyclic hchild hparent).resolve_left hne
    have hbelow : child ∈ model.descendants parent :=
      (hlinked.mem_descendants_iff hacyclic).mpr (.single hparent)
    have hpair : Precedes (parent :: model.descendants parent) parent child :=
      Precedes.of_mem_append (List.mem_singleton_self parent) hbelow
    exact hpair.mono (hlinked.infix_descendants hacyclic hmet).sublist
  blocks member hmember := by
    obtain ⟨before, after, hsplit⟩ := hlinked.infix_descendants hacyclic hmember
    exact ⟨before, model.descendants member, after, hsplit.symm,
      fun _ => hlinked.mem_descendants_iff hacyclic⟩
  siblings_by_link left right parent hleft hright hleftMet hrightMet := by
    have hparent := hlinked.parent_met hacyclic hleftMet hleft
    rw [← hlinked.precedes_children_iff hleft hright]
    exact Precedes.iff_of_sublist (hlinked.nodup_descendants hacyclic root)
      (hlinked.siblings_sublist_descendants hacyclic hparent)
      (hlinked.edge_children_iff.mpr hleft) (hlinked.edge_children_iff.mpr hright)

end SoundlyLinked

/-- Whatever calls have led to a model, failing ones included, the walk through
the descendants of a class ends if no class is its own ancestor, and it lists
them in preorder. -/
theorem descendants_in_preorder (hreachable : model.Reachable)
    (hacyclic : model.AncestryAcyclic) (root : ClassId) :
    StackWalk.Meets model.children (model.children root) (model.descendants root) ∧
      model.ListsDescendants root (model.descendants root) :=
  ⟨hreachable.sound.linked.meets_descendants hacyclic root,
    hreachable.sound.linked.listsDescendants hacyclic root⟩

/-! ## A family in two parcels -/

/-- `Nurse` of `Bee` inherits from `Worker` of `Ant`, which inherits from
`Queen`, as `Drone` of `Bee` does. -/
def family : Model :=
  leftBy ((Call.addClass ⟨1⟩ { name := "Nurse", parent := some "Worker" }).run
    (leftBy ((Call.addClass ⟨1⟩ { name := "Drone", parent := some "Queen" }).run
      (leftBy ((Call.addClass ⟨0⟩ { name := "Worker", parent := some "Queen" }).run
        (leftBy ((Call.addClass ⟨0⟩ { name := "Queen" }).run hive)))))))

/-- `Bee` is sorted first, so the links of `Drone` and `Nurse` are older than
that of `Worker`. -/
def sortedFamily : Model :=
  leftBy ((Call.connectAndSort ⟨0⟩).run (leftBy ((Call.connectAndSort ⟨1⟩).run family)))

theorem sortedFamily_reachable : sortedFamily.Reachable := by
  refine .call (.call (.call (.call (.call (.call (.call (.call .empty ant_wellFormed)
    bee_wellFormed) ?_) ?_) ?_) ?_) ?_) ?_
  all_goals exact mem_parcelIds.mpr (by decide)

theorem ancestryAcyclic_of_older
    (holder : ∀ link ∈ model.links, link.parent.index < link.child.index) :
    model.AncestryAcyclic := by
  have hlower : ∀ id ancestor, model.HasAncestor id ancestor → ancestor.index < id.index := by
    intro id ancestor hpath
    induction hpath with
    | single hlast => exact holder _ (mem_links_of_parent? hlast)
    | tail _ hlast ih => exact (holder _ (mem_links_of_parent? hlast)).trans ih
  exact fun id hcycle => Nat.lt_irrefl _ (hlower id id hcycle)

theorem sortedFamily_descendants :
    sortedFamily.Reachable ∧ sortedFamily.AncestryAcyclic ∧
      sortedFamily.ListsDescendants ⟨0⟩ [⟨2⟩, ⟨1⟩, ⟨3⟩] := by
  have hacyclic : sortedFamily.AncestryAcyclic := ancestryAcyclic_of_older (by decide)
  have hlists := (descendants_in_preorder sortedFamily_reachable hacyclic ⟨0⟩).2
  have hlist : sortedFamily.descendants ⟨0⟩ = [⟨2⟩, ⟨1⟩, ⟨3⟩] := by decide
  exact ⟨sortedFamily_reachable, hacyclic, hlist ▸ hlists⟩

end Parcels.Model
