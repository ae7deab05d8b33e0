import Mathlib.Data.List.Count
import Mathlib.Logic.Function.Basic
import Parcels.Proofs.Model.Lasting
import Parcels.Proofs.Model.PrereqClosure

/-!
# Views of the links

A link shows as the parent of a class, among the children of a class and, where
it leaves a parcel, among the parcels that this one inherits from.  The views
are what is left when every link is written into all three as it is made, and
they agree whatever calls have led to the model.  A link once made stays until
the model is emptied.
-/

namespace Parcels

open Parcels.Graph Model

/-! ## Links written one at a time -/

/-- The links as they are kept for each class and for each parcel. -/
structure LinkTables where
  parent : ClassId → Option ClassId
  children : ClassId → List ClassId
  inherited : ParcelId → List ParcelId

namespace LinkTables

def empty : LinkTables where
  parent := fun _ => none
  children := fun _ => []
  inherited := fun _ => []

/-- The child gets its parent and the parent one more child.  The parcel of the
child notes the parcel of the parent, unless that is the same or is noted
already. -/
def enter (owner : ClassId → ParcelId) (tables : LinkTables) (link : Link) :
    LinkTables where
  parent := Function.update tables.parent link.child (some link.parent)
  children := Function.update tables.children link.parent
    (tables.children link.parent ++ [link.child])
  inherited :=
    if owner link.parent = owner link.child ∨
        owner link.parent ∈ tables.inherited (owner link.child) then
      tables.inherited
    else Function.update tables.inherited (owner link.child)
      (tables.inherited (owner link.child) ++ [owner link.parent])

end LinkTables

namespace Model

variable {model after : Model}

/-- The tables that the links of a model leave when they are entered in the
order in which they were made. -/
def linkTables (model : Model) : LinkTables :=
  model.links.foldl (LinkTables.enter model.owner) .empty

section Snoc

/-! What one more link adds to each view. -/

variable (model : Model) (links : List Link) (link : Link)

theorem parent?_snoc (hnew : link.child ∉ links.map Link.child) :
    parent? { model with links := links ++ [link] } =
      Function.update (parent? { model with links := links }) link.child
        (some link.parent) := by
  funext child
  by_cases hchild : child = link.child
  · subst hchild
    have hnone : links.find? (fun other => other.child == link.child) = none := by
      simpa using hnew
    simp [parent?, List.find?_append, hnone]
  · simp [parent?, List.find?_append, hchild, Ne.symm hchild]

theorem children_snoc :
    children { model with links := links ++ [link] } =
      Function.update (children { model with links := links }) link.parent
        (children { model with links := links } link.parent ++ [link.child]) := by
  funext parent
  by_cases hparent : parent = link.parent
  · subst hparent
    simp [children]
  · simp [children, hparent, Ne.symm hparent]

theorem inheritedParcels_snoc :
    inheritedParcels { model with links := links ++ [link] } =
      if model.owner link.parent = model.owner link.child ∨
          model.owner link.parent ∈
            inheritedParcels { model with links := links }
              (model.owner link.child) then
        inheritedParcels { model with links := links }
      else
        Function.update (inheritedParcels { model with links := links })
          (model.owner link.child)
          (inheritedParcels { model with links := links }
            (model.owner link.child) ++ [model.owner link.parent]) := by
  have howner : ∀ kept, owner { model with links := kept } = model.owner :=
    fun _ => rfl
  funext id
  by_cases hid : id = model.owner link.child
  · subst hid
    by_cases hsame : model.owner link.parent = model.owner link.child
    · simp [inheritedParcels, howner, hsame]
    · simp only [inheritedParcels, howner, List.filter_append, List.map_append,
        List.filter_cons, List.filter_nil, beq_self_eq_true, if_true, List.map_cons,
        List.map_nil, bne_iff_ne, ne_eq, hsame, not_false_eq_true, false_or]
      rw [eraseDups_append_singleton]
      split <;> simp [inheritedParcels, howner]
  · have hother : (model.owner link.child == id) = false :=
      beq_false_of_ne (Ne.symm hid)
    split
    · simp [inheritedParcels, howner, hother]
    · simp [inheritedParcels, howner, hother, hid]

end Snoc

/-- Entering the links one by one gives the views of all of them. -/
theorem linkTables_eq (honce : (model.links.map Link.child).Nodup) :
    model.linkTables =
      ⟨model.parent?, model.children, model.inheritedParcels⟩ := by
  suffices hprefix : ∀ links, links <+: model.links →
      links.foldl (LinkTables.enter model.owner) .empty =
        ⟨parent? { model with links := links },
          children { model with links := links },
          inheritedParcels { model with links := links }⟩ from
    hprefix model.links (List.prefix_refl _)
  intro links hlinks
  induction links using List.reverseRecOn with
  | nil => rfl
  | append_singleton links link ih =>
      have hnodup := honce.sublist (hlinks.sublist.map Link.child)
      have hnew : link.child ∉ links.map Link.child := by
        intro hmem
        rw [List.map_append, List.nodup_append] at hnodup
        exact hnodup.2.2 _ hmem _ (by simp) rfl
      rw [List.foldl_append, ih ((List.prefix_append _ _).trans hlinks)]
      rw [parent?_snoc model links link hnew, children_snoc, inheritedParcels_snoc]
      rfl

/-! ## Agreement -/

/-- What the views say of each other and of the classes and parcels. -/
structure LinksAgree (model : Model) : Prop where
  /-- The views are what entering every link as it was made has left. -/
  written : model.linkTables =
    ⟨model.parent?, model.children, model.inheritedParcels⟩
  count_children : ∀ child parent, (model.children parent).count child =
    if model.parent? child = some parent then 1 else 0
  declared : ∀ child parent, model.parent? child = some parent →
    (model.classAt child).parentName = some (model.className parent)
  heritable : ∀ child parent, model.parent? child = some parent →
    (model.classAt parent).isFinal = false
  scope : ∀ child parent, model.parent? child = some parent →
    Reaches model.prereqParcels (model.owner child) (model.owner parent)
  nodup_inherited : ∀ id, (model.inheritedParcels id).Nodup
  mem_inherited_iff : ∀ id other, other ∈ model.inheritedParcels id ↔
    other ≠ id ∧ ∃ child ∈ model.classesOf id, ∃ parent ∈ model.classesOf other,
      model.parent? child = some parent

/-- A parcel inherits from the other parcels that hold parents of its classes. -/
theorem Sound.mem_inheritedParcels_iff (hsound : model.Sound) {id other : ParcelId} :
    other ∈ model.inheritedParcels id ↔
      other ≠ id ∧ ∃ child ∈ model.classesOf id, ∃ parent ∈ model.classesOf other,
        model.parent? child = some parent := by
  have hlinks : other ∈ model.inheritedParcels id ↔ other ≠ id ∧
      ∃ link ∈ model.links,
        model.owner link.child = id ∧ model.owner link.parent = other := by
    simp only [inheritedParcels, List.mem_eraseDups, List.mem_filter, List.mem_map,
      beq_iff_eq, bne_iff_ne, and_assoc]
    exact and_comm
  rw [hlinks]
  apply and_congr_right
  intro _
  constructor
  · intro hlink
    obtain ⟨link, hlink, rfl, rfl⟩ := hlink
    have hknown := hsound.linked.known link hlink
    have hparent : model.parent? link.child = some link.parent :=
      (parent?_eq_some_iff hsound.linked.once).mpr hlink
    exact ⟨link.child, hsound.partitioned.mem_classesOf_owner hknown.1,
      link.parent, hsound.partitioned.mem_classesOf_owner hknown.2, hparent⟩
  · intro hclasses
    obtain ⟨child, hchild, parent, hparent, hlinked⟩ := hclasses
    exact ⟨⟨child, parent⟩, mem_links_of_parent? hlinked,
      hsound.partitioned.owner_of_mem hchild, hsound.partitioned.owner_of_mem hparent⟩

/-- In a sound model, all ways to look at the links agree. -/
theorem Sound.linksAgree (hsound : model.Sound) : model.LinksAgree := by
  have honce := hsound.linked.once
  constructor
  · exact linkTables_eq honce
  · intro child parent
    rw [(nodup_children honce parent).count]
    simp only [mem_children_iff honce]
  · intro child parent hparent
    exact hsound.linked.declared _ (mem_links_of_parent? hparent)
  · intro child parent hparent
    exact hsound.linked.heritable _ (mem_links_of_parent? hparent)
  · intro child parent hparent
    exact hsound.linked.scope _ (mem_links_of_parent? hparent)
  · intro id
    exact nodup_eraseDups _
  · intro id other
    exact hsound.mem_inheritedParcels_iff

/-! ## Links last -/

theorem parent?_of_prefix (hlinks : model.links <+: after.links)
    {child parent : ClassId} (hparent : model.parent? child = some parent) :
    after.parent? child = some parent := by
  obtain ⟨more, hmore⟩ := hlinks
  obtain ⟨link, hfind, rfl⟩ := Option.map_eq_some_iff.mp hparent
  rw [parent?, ← hmore, List.find?_append, hfind]
  rfl

/-- Whatever calls have led to a model, failing ones included, the views of its
links agree, and no further call changes a parent unless the model is
emptied. -/
theorem links_agree_and_last (hreachable : model.Reachable) :
    model.LinksAgree ∧ ∀ after, Relation.ReflTransGen Continues model after →
      ∀ child parent, model.parent? child = some parent →
        after.parent? child = some parent := by
  constructor
  · exact hreachable.sound.linksAgree
  · intro after hsteps child parent hparent
    exact parent?_of_prefix (hreachable.sound.lasts hsteps).2.links hparent

/-! ## A sort that fails half-way -/

/-- `Drone` inherits from `Worker` of `Ant`; the parent of `Queen` is missing. -/
def orphanedHive : Model :=
  leftBy ((Call.addClass ⟨1⟩ { name := "Queen", parent := some "Mother" }).run
    (leftBy ((Call.addClass ⟨1⟩ { name := "Drone", parent := some "Worker" }).run
      (leftBy ((Call.addClass ⟨0⟩ { name := "Worker" }).run hive)))))

theorem orphanedHive_reachable : orphanedHive.Reachable := by
  refine .call (.call (.call (.call (.call .empty ant_wellFormed) bee_wellFormed) ?_) ?_) ?_
  all_goals exact mem_parcelIds.mpr (by decide)

/-- The sort of `Bee` links `Drone` and then fails. -/
def halfLinkedHive : Model :=
  leftBy ((Call.connectAndSort ⟨1⟩).run orphanedHive)

theorem halfLinkedHive_reachable : halfLinkedHive.Reachable :=
  .call orphanedHive_reachable (mem_parcelIds.mpr (by decide))

theorem halfLinkedHive_links_agree_and_last :
    Ends (connectAndSort ⟨1⟩ orphanedHive) (fun _ _ => False)
        (fun error _ => error = .unresolvedParent "Mother" "Queen") ∧
      halfLinkedHive.Reachable ∧ halfLinkedHive.LinksAgree ∧
      halfLinkedHive.parent? ⟨1⟩ = some ⟨0⟩ ∧
      halfLinkedHive.inheritedParcels ⟨1⟩ = [⟨0⟩] ∧
      (leftBy (connectAndSort ⟨1⟩ halfLinkedHive)).parent? ⟨1⟩ = some ⟨0⟩ := by
  have hvalid : (Call.connectAndSort ⟨1⟩).Valid halfLinkedHive :=
    mem_parcelIds.mpr (by decide)
  have hagain : Continues halfLinkedHive
      (leftBy (connectAndSort ⟨1⟩ halfLinkedHive)) :=
    ⟨.connectAndSort ⟨1⟩, hvalid, by simp, rfl⟩
  have hparent : halfLinkedHive.parent? ⟨1⟩ = some ⟨0⟩ := by decide
  have hviews := links_agree_and_last halfLinkedHive_reachable
  exact ⟨by decide, halfLinkedHive_reachable, hviews.1, hparent, by decide,
    hviews.2 _ (.single hagain) ⟨1⟩ ⟨0⟩ hparent⟩

end Model

end Parcels
