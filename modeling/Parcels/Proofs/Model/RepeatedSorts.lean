import Parcels.Proofs.Model.LinkViews
import Parcels.Proofs.Model.Renaming
import Parcels.Proofs.Model.SortedModels
import Parcels.Proofs.Model.SortOutcomes

/-!
# Sorting a parcel again

A sort leaves links behind, also when it fails.  The next sort of the parcel
passes over the classes that have theirs, so it stops where the first one
stopped or, if that passed, finds nothing to link and the classes in the order
that it gives them.
-/

namespace Parcels.Model

variable {model after linked : Model} {id : ParcelId}

/-! ## Linking again -/

theorem linkParent_of_needsNoLink {child : ClassId} (hchild : model.NeedsNoLink child) :
    linkParent id child model = .ok () model := by
  unfold linkParent
  rw [bind_get]
  split
  · rfl
  · next hunlinked =>
    rw [hchild (by simpa using hunlinked)]
    rfl

/-- The loop comes to the first class that needs a link without doing anything. -/
theorem forM_linkParent_append {done : List ClassId}
    (hdone : ∀ child ∈ done, model.NeedsNoLink child) (rest : List ClassId) :
    (done ++ rest).forM (linkParent id) model = rest.forM (linkParent id) model := by
  induction done with
  | nil => rfl
  | cons first done ih =>
      obtain ⟨hfirst, hdone⟩ := List.forall_mem_cons.mp hdone
      exact (bind_of_ok _ (linkParent_of_needsNoLink hfirst)).trans (ih hdone)

theorem forM_linkParent_of_needsNoLink {members : List ClassId}
    (hmembers : ∀ child ∈ members, model.NeedsNoLink child) :
    members.forM (linkParent id) model = .ok () model := by
  rw [← List.append_nil members, forM_linkParent_append hmembers]
  rfl

/-- Begun again where it has stopped, the loop over the classes of a parcel stops
at the same class for the same reason. -/
theorem forM_linkParent_again (model : Model) (id : ParcelId) :
    Ends ((model.classesOf id).forM (linkParent id) model) (fun _ _ => True)
      (fun error after =>
        (model.classesOf id).forM (linkParent id) after = .error error after) := by
  refine (Ends.forM (fun done after => (∀ child ∈ done, after.NeedsNoLink child) ∧
    MakesLinks id model after) ?_ ⟨by simp, .refl⟩).imp fun _ _ _ => trivial
  rintro done child rest before hmembers ⟨hdone, hlinks⟩
  have hmember : child ∈ before.classesOf id := by
    rw [hlinks.classesOf_eq, hmembers]
    simp
  have hends := linkParent_ends hmember
  cases hrun : linkParent id child before with
  | ok _ after =>
      obtain ⟨hlinkable, hlink, rfl⟩ := hends.of_eq_ok hrun
      refine ⟨List.forall_mem_append.mpr ⟨fun other hother => ?_, ?_⟩, hlinks.trans hlink⟩
      · exact (hdone other hother).linking [child]
      · exact List.forall_mem_singleton.mpr
          (hlinkable.needsNoLink (List.mem_singleton_self child))
  | error error after =>
      rw [hrun] at hends
      obtain ⟨-, rfl⟩ := hends
      rw [Ends.error_iff, hmembers, forM_linkParent_append hdone]
      exact bind_of_error _ hrun

/-! ## The rest of the call -/

/-- What a sort of the classes `members` comes to once they are linked. -/
def arrange (id : ParcelId) (members : List ClassId) (linked : Model) :
    EStateM.Result Error Model Unit :=
  if (linked.inheritanceOrder id).length = members.length then
    .ok () (linked.setClasses id (linked.inheritanceOrder id))
  else .error (linked.sortError id members) linked

theorem connectAndSort_of_linked
    (hloop : (model.classesOf id).forM (linkParent id) model = .ok () linked) :
    connectAndSort id model = arrange id (model.classesOf id) linked := by
  have hlinked : Ends ((model.classesOf id).forM (linkParent id) model)
      (fun _ after => after = linked) fun _ _ => False := by
    rw [hloop]
    rfl
  have hends := connectAndSort_of_loop hlinked
  unfold arrange
  cases hrun : connectAndSort id model with
  | ok _ after =>
      obtain ⟨_, rfl, hlength, rfl⟩ := hends.of_eq_ok hrun
      rw [if_pos hlength]
  | error error after =>
      rw [hrun] at hends
      rcases hends with hstopped | ⟨rfl, hlength, rfl⟩
      · exact hstopped.elim
      · rw [if_neg hlength]

theorem connectAndSort_of_stopped {error : Error}
    (hloop : (model.classesOf id).forM (linkParent id) model = .error error after) :
    connectAndSort id model = .error error after := by
  unfold connectAndSort
  rw [bind_get]
  exact bind_of_error _ hloop

/-- The order that a sort gives the classes does not depend on the one that they
have. -/
theorem Sound.inheritanceOrder_setClasses (hsound : model.Sound) {classes : List ClassId}
    (hperm : classes.Perm (model.classesOf id)) :
    (model.setClasses id classes).inheritanceOrder id = model.inheritanceOrder id := by
  have hrenames : Renames (.refl ParcelId) (.refl ClassId) model
      (model.setClasses id classes) := .refl (specs_setClasses model id classes) rfl
  have hparents : SameParents (.refl ClassId) model (model.setClasses id classes) id := by
    intro member _
    rw [Equiv.coe_refl, Option.map_id]
    rfl
  simpa using hrenames.inheritanceOrder_eq hsound (hsound.setClasses hperm) hparents

theorem Sound.arrange_again (hsound : model.Sound) (hid : id ∈ model.parcelIds)
    (hfull : model.FullyLinked id) :
    connectAndSort id (leftBy (arrange id (model.classesOf id) model)) =
      arrange id (model.classesOf id) model := by
  unfold arrange
  by_cases hlength : (model.inheritanceOrder id).length = (model.classesOf id).length
  · rw [if_pos hlength]
    have hperm := inheritanceOrder_perm hsound.partitioned hsound.linked hlength
    have hlist : (model.setClasses id (model.inheritanceOrder id)).classesOf id =
        model.inheritanceOrder id := classesOf_setClasses_self hid _
    have hlinked : ∀ child ∈ (model.setClasses id (model.inheritanceOrder id)).classesOf id,
        (model.setClasses id (model.inheritanceOrder id)).NeedsNoLink child := by
      rw [hlist]
      exact fun child hchild => hfull child (hperm.subset hchild)
    rw [leftBy, connectAndSort_of_linked (forM_linkParent_of_needsNoLink hlinked), arrange,
      hlist, hsound.inheritanceOrder_setClasses hperm, if_pos rfl, setClasses_setClasses]
  · rw [if_neg hlength, leftBy,
      connectAndSort_of_linked (forM_linkParent_of_needsNoLink hfull), arrange,
      if_neg hlength]

/-- The first sort decides what the second comes to, however it ended. -/
theorem Sound.connectAndSort_again (hsound : model.Sound) (hid : id ∈ model.parcelIds) :
    connectAndSort id (leftBy (connectAndSort id model)) = connectAndSort id model := by
  cases hloop : (model.classesOf id).forM (linkParent id) model with
  | error error after =>
      have hagain := forM_linkParent_again model id
      rw [hloop, Ends.error_iff] at hagain
      have hrun := connectAndSort_of_stopped hloop
      have hlist := connectAndSort_error_frame hrun id
      rw [hrun]
      exact connectAndSort_of_stopped (hlist.symm ▸ hagain)
  | ok _ linked =>
      obtain ⟨hlinkable, -, rfl⟩ :=
        (forM_linkParent_ends (hsound.partitioned.nodup id)).of_eq_ok hloop
      rw [connectAndSort_of_linked hloop]
      exact (hsound.connected hlinkable).arrange_again hid (fullyLinked_connected hlinkable)

/-- A second sort right after the first ends as that did, with the same error if
it failed, and leaves what that left, where no child and no inherited parcel is
noted twice. -/
theorem connectAndSort_repeats (hreachable : model.Reachable) (hid : id ∈ model.parcelIds) :
    connectAndSort id (leftBy (connectAndSort id model)) = connectAndSort id model ∧
      (leftBy (connectAndSort id (leftBy (connectAndSort id model)))).LinksAgree := by
  have hagain := hreachable.sound.connectAndSort_again hid
  have hafter : (leftBy ((Call.connectAndSort id).run model)).Reachable :=
    .call hreachable hid
  refine ⟨hagain, ?_⟩
  rw [hagain]
  exact hafter.sound.linksAgree

/-! ## A sort that fails half-way -/

/-- The first sort of `Bee` links `Drone` and stops at `Queen`, and so does the
second. -/
theorem orphanedHive_sorts_again :
    orphanedHive.Reachable ∧ ⟨1⟩ ∈ orphanedHive.parcelIds ∧
      Ends (connectAndSort ⟨1⟩ orphanedHive) (fun _ _ => False)
        (fun error after => error = .unresolvedParent "Mother" "Queen" ∧
          after.links = [⟨⟨1⟩, ⟨0⟩⟩]) ∧
      connectAndSort ⟨1⟩ halfLinkedHive = connectAndSort ⟨1⟩ orphanedHive ∧
      (leftBy (connectAndSort ⟨1⟩ halfLinkedHive)).LinksAgree := by
  have hbee : ⟨1⟩ ∈ orphanedHive.parcelIds := mem_parcelIds.mpr (by decide)
  exact ⟨orphanedHive_reachable, hbee, by decide,
    connectAndSort_repeats orphanedHive_reachable hbee⟩

end Parcels.Model
