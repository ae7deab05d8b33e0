import Parcels.Hierarchy.Build
import Parcels.Proofs.Model.ClassSorting

/-!
# Resolving a model

The end of a build checks the prereqs of every parcel that is not included and
sorts the classes of every parcel.  When all of this passes, what is not
included is required and every parcel lists parents first.
-/

namespace Parcels.Hierarchy

open Model

/-- The checks of the parcels `done` have passed. -/
structure Checked (before after : Model) (done : List ParcelId) : Prop where
  unfailed : after.Unfailed
  frame : after = { before with checks := after.checks }
  required : ∀ id ∈ done, (before.parcelAt id).included = false →
    id ∈ after.checks.required

/-- The classes of the parcels `done` have been sorted. -/
structure Sorted (before after : Model) (done : List ParcelId) : Prop where
  unfailed : after.Unfailed
  specs_eq : after.specs = before.specs
  classes_eq : after.classes = before.classes
  checks_eq : after.checks = before.checks
  sorted : ∀ id ∈ done, after.ListsParentsFirst id

variable {before model : Model} {done : List ParcelId} {id : ParcelId}

/-- A step that may be skipped. -/
theorem ends_unless {action : Action Model Unit} {skip : Bool}
    {onResult : Unit → Model → Prop} {onError : Parcels.Error → Model → Prop}
    (haction : skip = false → Ends (action model) onResult onError)
    (hskip : skip = true → onResult () model) :
    Ends ((if !skip then action else pure ()) model) onResult onError := by
  cases skip with
  | true => exact hskip rfl
  | false => exact haction rfl

theorem Checked.parcelIds_eq (hchecked : Checked before model done) :
    model.parcelIds = before.parcelIds := by
  rw [hchecked.frame]
  rfl

theorem Checked.skip (hchecked : Checked before model done)
    (hincluded : (model.parcelAt id).included = true) :
    Checked before model (done ++ [id]) where
  unfailed := hchecked.unfailed
  frame := hchecked.frame
  required := by
    intro other hother hnot
    rcases List.mem_append.mp hother with hdone | hlast
    · exact hchecked.required other hdone hnot
    · obtain rfl := List.mem_singleton.mp hlast
      rw [hchecked.frame] at hincluded
      exact absurd hincluded (by simpa [parcelAt] using hnot)

theorem Checked.check (hchecked : Checked before model done)
    (hid : id ∈ before.parcelIds) :
    Ends (checkPrereqs id model)
      (fun _ after => Checked before after (done ++ [id])) (fun _ _ => True) := by
  have hframe := hchecked.frame
  have hid' : id ∈ model.parcelIds := hchecked.parcelIds_eq ▸ hid
  refine Ends.of_ok fun _ after hrun => ?_
  have hunfailed : after.Unfailed :=
    hchecked.unfailed.next (.checkPrereqs id) ⟨hid', after, hrun⟩ hrun
  obtain ⟨checks, hafter, hpassed⟩ :=
    (checkPrereqs_ends hchecked.unfailed.reachable.sound.settled hid').of_eq_ok hrun
  refine ⟨hunfailed, by rw [hafter, hframe], fun other hother hincluded => ?_⟩
  rw [hafter]
  rcases List.mem_append.mp hother with hbefore | hlast
  · exact hpassed.required_subset (hchecked.required other hbefore hincluded)
  · obtain rfl := List.mem_singleton.mp hlast
    exact (hpassed.required_iff other).mpr (.inr ⟨other, by simp, .refl⟩)

theorem Sorted.skip (hsorted : Sorted before model done)
    (hempty : (model.classesOf id).isEmpty = true) :
    Sorted before model (done ++ [id]) where
  unfailed := hsorted.unfailed
  specs_eq := hsorted.specs_eq
  classes_eq := hsorted.classes_eq
  checks_eq := hsorted.checks_eq
  sorted := by
    intro other hother
    rcases List.mem_append.mp hother with hdone | hlast
    · exact hsorted.sorted other hdone
    · obtain rfl := List.mem_singleton.mp hlast
      exact hsorted.unfailed.reachable.sound.listsParentsFirst_of_empty
        (by simpa using hempty)

theorem Sorted.sort (hsorted : Sorted before model done)
    (hid : id ∈ before.parcelIds) :
    Ends (connectAndSort id model)
      (fun _ after => Sorted before after (done ++ [id])) (fun _ _ => True) := by
  have hsound := hsorted.unfailed.reachable.sound
  have hid' : id ∈ model.parcelIds := parcelIds_congr hsorted.specs_eq ▸ hid
  refine Ends.of_ok fun _ after hrun => ?_
  have hunfailed : after.Unfailed :=
    hsorted.unfailed.next (.connectAndSort id) ⟨hid', trivial⟩ hrun
  obtain ⟨linked, hlinks, hcomplete, rfl⟩ :=
    (connectAndSort_ends model id).of_eq_ok hrun
  have hframe := hlinks.frame
  refine ⟨hunfailed, ?_, ?_, ?_, ?_⟩
  · rw [specs_setClasses, hframe]
    exact hsorted.specs_eq
  · change linked.classes = before.classes
    rw [hframe]
    exact hsorted.classes_eq
  · change linked.checks = before.checks
    rw [hframe]
    exact hsorted.checks_eq
  · intro other hother
    by_cases hsame : other = id
    · subst hsame
      exact (hsound.sorts hid' hlinks hcomplete).listsParentsFirst
        hunfailed.reachable.sound
    · have hdone : other ∈ done := by simpa [hsame] using hother
      exact (hsorted.sorted other hdone).sorts hsound hsame hlinks _

/-- What a build has made of a model when it has resolved it. -/
structure Resolved (before after : Model) : Prop where
  unfailed : after.Unfailed
  specs_eq : after.specs = before.specs
  classes_eq : after.classes = before.classes
  required : ∀ id ∈ after.parcelIds, (after.parcelAt id).included = false →
    id ∈ after.checks.required
  sorted : ∀ id, after.ListsParentsFirst id

theorem Sorted.resolved {checked : Model}
    (hchecked : Checked before checked before.parcelIds)
    (hsorted : Sorted checked model before.parcelIds) : Resolved before model := by
  have hspecs : model.specs = before.specs := by
    rw [hsorted.specs_eq, hchecked.frame]
    rfl
  refine ⟨hsorted.unfailed, hspecs, ?_, ?_, ?_⟩
  · rw [hsorted.classes_eq, hchecked.frame]
  · intro id hid hincluded
    rw [parcelIds_congr hspecs] at hid
    rw [toParcel_congr hspecs] at hincluded
    rw [hsorted.checks_eq]
    exact hchecked.required id hid hincluded
  · intro id
    by_cases hid : id ∈ model.parcelIds
    · exact hsorted.sorted id (parcelIds_congr hspecs ▸ hid)
    · exact hsorted.unfailed.reachable.sound
        |>.listsParentsFirst_of_empty (classesOf_of_not_mem hid)

/-- All checks pass first; then every parcel is sorted or has nothing to sort. -/
theorem resolve_keeps {Sorting : List ParcelId → Model → Prop}
    (hunfailed : before.Unfailed)
    (hstart : ∀ checked, Checked before checked before.parcelIds → Sorting [] checked)
    (hskip : ∀ done id model, Sorting done model →
      (model.classesOf id).isEmpty = true → Sorting (done ++ [id]) model)
    (hsort : ∀ done id model, Sorting done model → id ∈ before.parcelIds →
      Ends (connectAndSort id model) (fun _ => Sorting (done ++ [id]))
        (fun _ _ => True)) :
    Ends (resolve before) (fun _ => Sorting before.parcelIds) (fun _ _ => True) := by
  have hchecked : Checked before before [] := ⟨hunfailed, rfl, by simp⟩
  unfold resolve
  rw [bind_get]
  refine Ends.andThen
    (Ends.forM (fun done after => Checked before after done) ?_ hchecked) ?_
  · intro done id rest model hids hchecked
    rw [bind_get]
    exact ends_unless (fun _ => hchecked.check (by simp [hids])) hchecked.skip
  · intro _ checked hchecked
    refine Ends.forM Sorting ?_ (hstart checked hchecked)
    intro done id rest model hids hsorting
    rw [bind_get]
    exact ends_unless (fun _ => hsort done id model hsorting (by simp [hids]))
      (hskip done id model hsorting)

/-- The parcels `done` have been sorted after all checks had passed. -/
def SortedAfterChecks (before : Model) (done : List ParcelId) (model : Model) : Prop :=
  ∃ checked, Checked before checked before.parcelIds ∧ Sorted checked model done

theorem SortedAfterChecks.start {checked : Model}
    (hchecked : Checked before checked before.parcelIds) :
    SortedAfterChecks before [] checked :=
  ⟨checked, hchecked, hchecked.unfailed, rfl, rfl, rfl, by simp⟩

theorem SortedAfterChecks.skip (hsorted : SortedAfterChecks before done model)
    (hempty : (model.classesOf id).isEmpty = true) :
    SortedAfterChecks before (done ++ [id]) model := by
  obtain ⟨checked, hchecked, hsorted⟩ := hsorted
  exact ⟨checked, hchecked, hsorted.skip hempty⟩

theorem SortedAfterChecks.sort (hsorted : SortedAfterChecks before done model)
    (hid : id ∈ before.parcelIds) :
    Ends (connectAndSort id model)
      (fun _ => SortedAfterChecks before (done ++ [id])) (fun _ _ => True) := by
  obtain ⟨checked, hchecked, hsorted⟩ := hsorted
  exact (hsorted.sort (hchecked.parcelIds_eq ▸ hid)).imp fun _ _ hafter =>
    ⟨checked, hchecked, hafter⟩

/-- If all checks and sorts pass, the model is resolved. -/
theorem resolve_ends (hunfailed : before.Unfailed) :
    Ends (resolve before) (fun _ => Resolved before) (fun _ _ => True) := by
  have hsorted := resolve_keeps hunfailed
    (fun _ hchecked => SortedAfterChecks.start hchecked)
    (fun _ _ _ hsorted hempty => hsorted.skip hempty)
    (fun _ _ _ hsorted hid => hsorted.sort hid)
  apply hsorted.imp
  rintro _ after ⟨checked, hchecked, hsorted⟩
  exact hsorted.resolved hchecked

end Parcels.Hierarchy
