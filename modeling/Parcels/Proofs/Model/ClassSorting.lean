import Parcels.Proofs.Model.Calls

/-!
# Sorting the classes of a parcel

A sort that passes leaves the preorder of the forest that the links within the
parcel form.  It touches the class list of its own parcel only, and it links
classes of this parcel only, so no other parcel gets out of order by it.
-/

namespace Parcels.Model

variable {model after : Model} {id : ParcelId}

/-- What a sort of a parcel's classes that passes comes to. -/
structure Sorts (model after : Model) (id : ParcelId) : Prop where
  perm : (after.classesOf id).Perm (model.classesOf id)
  inPreorder : after.InPreorder id (after.classesOf id)
  frame : ∀ other, other ≠ id → after.classesOf other = model.classesOf other

theorem MakesLinks.classesOf_eq (hlinks : MakesLinks id model after)
    (other : ParcelId) : after.classesOf other = model.classesOf other := by
  rw [hlinks.frame]
  rfl

/-- The links are made first, and the order is the one that they give. -/
theorem Sound.sorts {linked : Model} (hsound : model.Sound)
    (hid : id ∈ model.parcelIds) (hlinks : MakesLinks id model linked)
    (hcomplete : (linked.inheritanceOrder id).length =
      (model.classesOf id).length) :
    model.Sorts (linked.setClasses id (linked.inheritanceOrder id)) id := by
  have hperm := hsound.perm_of_complete hlinks hcomplete
  have hlinked := hsound.makesLinks hlinks
  have hknown : id ∈ linked.parcelIds := by
    rw [hlinks.frame]
    exact hid
  have horder : linked.InPreorder id (linked.inheritanceOrder id) := by
    apply inPreorder_inheritanceOrder hlinked.partitioned hlinked.linked
    rw [hlinks.classesOf_eq]
    exact hperm
  refine ⟨?_, ?_, ?_⟩
  · rw [classesOf_setClasses_self hknown]
    exact hperm
  · rw [classesOf_setClasses_self hknown]
    exact horder.congr rfl rfl
  · intro other hne
    rw [classesOf_setClasses_of_ne hne, hlinks.classesOf_eq]

/-! ## Parents first -/

/-- Within the parcel, linked parents are listed before their children. -/
def ListsParentsFirst (model : Model) (id : ParcelId) : Prop :=
  ∀ parent child, model.ParentWithin id parent child →
    Precedes (model.classesOf id) parent child

theorem MakesLinks.parent?_eq (hlinks : MakesLinks id model after)
    (hpartitioned : model.Partitioned) {child : ClassId}
    (howner : model.owner child ≠ id) :
    after.parent? child = model.parent? child := by
  induction hlinks with
  | refl => rfl
  | @tail between _ hbefore hlink ih =>
      cases hlink with
      | @link linked parent _ hmember =>
          have hne : linked ≠ child := by
            rintro rfl
            rw [MakesLinks.classesOf_eq hbefore] at hmember
            exact howner (hpartitioned.owner_of_mem hmember)
          rw [← ih]
          simp [parent?, List.find?_append, hne]

/-- A sorted parcel lists parents before their children. -/
theorem Sorts.listsParentsFirst (hsorts : model.Sorts after id)
    (hafter : after.Sound) : after.ListsParentsFirst id := by
  intro parent child hwithin
  have hchild := (hafter.linked.known _ (mem_links_of_parent? hwithin.linked)).1
  refine hsorts.inPreorder.parents_first ?_ hwithin
  exact hwithin.child_owned ▸ hafter.partitioned.mem_classesOf_owner hchild

theorem Sound.listsParentsFirst_of_empty (hsound : model.Sound)
    (hempty : model.classesOf id = []) : model.ListsParentsFirst id := by
  intro parent child hwithin
  have hchild := (hsound.linked.known _ (mem_links_of_parent? hwithin.linked)).1
  have hmember := hsound.partitioned.mem_classesOf_owner hchild
  rw [hwithin.child_owned, hempty] at hmember
  cases hmember

/-- Whether parents are first depends on the classes of the parcel, on their
parents and on its list. -/
theorem ListsParentsFirst.congr (hlists : model.ListsParentsFirst id)
    (hclasses : after.classes = model.classes)
    (hparents : ∀ child, model.owner child = id →
      after.parent? child = model.parent? child)
    (hlist : after.classesOf id = model.classesOf id) :
    after.ListsParentsFirst id := by
  intro parent child hwithin
  obtain ⟨hlinked, hparent, hchild⟩ := hwithin
  rw [owner_congr hclasses] at hparent hchild
  rw [hparents child hchild] at hlinked
  rw [hlist]
  exact hlists parent child ⟨hlinked, hparent, hchild⟩

/-- Another parcel is sorted. -/
theorem ListsParentsFirst.sorts {other : ParcelId} {linked : Model}
    (hlists : model.ListsParentsFirst other) (hsound : model.Sound)
    (hne : other ≠ id) (hlinks : MakesLinks id model linked)
    (classes : List ClassId) :
    (linked.setClasses id classes).ListsParentsFirst other := by
  apply hlists.congr
  · rw [hlinks.frame]
    rfl
  · intro child hchild
    exact hlinks.parent?_eq hsound.partitioned (hchild ▸ hne)
  · rw [classesOf_setClasses_of_ne hne, hlinks.classesOf_eq]

/-! ## Every sort -/

/-- Whatever came before, a sort that passes puts every class right before the
classes below it, roots and siblings by name. -/
theorem connectAndSort_sorts (hreachable : model.Reachable)
    (hid : id ∈ model.parcelIds) (hrun : connectAndSort id model = .ok () after) :
    model.Sorts after id := by
  have hends := connectAndSort_ends model id
  rw [hrun] at hends
  obtain ⟨linked, hlinks, hcomplete, rfl⟩ := hends
  exact hreachable.sound.sorts hid hlinks hcomplete

/-! ## Two classes -/

def farm : Parcel :=
  { name := "Farm", nickname := "Farm", version := .zero, included := false
    installed := true }

theorem farm_wellFormed : farm.WellFormed where
  name := by decide
  nickname := by decide
  prereqs := List.forall_mem_nil _
  installed := fun _ => rfl

/-- `Calf` is declared before `Cow`, which it inherits from. -/
def farmModel : Model :=
  leftBy ((Call.addClass ⟨0⟩ { name := "Cow" }).run
    (leftBy ((Call.addClass ⟨0⟩ { name := "Calf", parent := some "Cow" }).run
      (leftBy ((Call.register farm).run {})))))

theorem farmModel_sorts :
    farmModel.Reachable ∧ ⟨0⟩ ∈ farmModel.parcelIds ∧
      ∃ after, connectAndSort ⟨0⟩ farmModel = .ok () after ∧
        farmModel.Sorts after ⟨0⟩ ∧ after.classesOf ⟨0⟩ = [⟨1⟩, ⟨0⟩] := by
  have hreachable : farmModel.Reachable :=
    .call (.call (.call .empty farm_wellFormed) (mem_parcelIds.mpr (by decide)))
      (mem_parcelIds.mpr (by decide))
  have hid : ⟨0⟩ ∈ farmModel.parcelIds := by decide
  have hends : Ends (connectAndSort ⟨0⟩ farmModel)
      (fun _ after => after.classesOf ⟨0⟩ = [⟨1⟩, ⟨0⟩]) (fun _ _ => False) := by
    decide
  obtain ⟨_, after, hrun, horder⟩ := hends.exists_ok
  exact ⟨hreachable, hid, after, hrun, connectAndSort_sorts hreachable hid hrun,
    horder⟩

end Parcels.Model
