import Parcels.Proofs.Model.Lasting
import Parcels.Proofs.Model.PrereqClosure

/-!
# Required parcels

A check may stop half-way and be begun again from another parcel, but a parcel
is only required once its whole closure has been checked.  So the required
parcels are closed under prereqs and free of cycles in every model, and what
further calls add leaves them so.
-/

namespace Parcels.Model

open Parcels.Graph

variable {model after : Model} {id : ParcelId}

/-- What the required parcels of a model are, whatever checks have been made. -/
structure RequiredClosed (model : Model) : Prop where
  /-- Every prereq of a required parcel names a required parcel that will do. -/
  satisfied : ∀ id, model.isRequired id = true → id ∈ model.parcelIds ∧
    ∀ prereq ∈ (model.parcelAt id).prereqs, ∃ found,
      model.Satisfies prereq found ∧ model.isRequired found = true
  closed : ∀ id, model.isRequired id = true → ∀ other,
    Reaches model.prereqParcels id other → model.isRequired other = true
  acyclic : ∀ id, model.isRequired id = true → ¬ OnCycle model.prereqParcels id

/-- What becomes of the required parcels of a model in a later one. -/
structure RequiredLast (model after : Model) : Prop where
  required : ∀ id, model.isRequired id = true → after.isRequired id = true
  prereqs_eq : ∀ id, model.isRequired id = true →
    (after.parcelAt id).prereqs = (model.parcelAt id).prereqs
  satisfied : ∀ id, model.isRequired id = true →
    ∀ prereq ∈ (model.parcelAt id).prereqs, ∀ found,
      model.Satisfies prereq found ↔ after.Satisfies prereq found

theorem isRequired_iff : model.isRequired id = true ↔ id ∈ model.checks.required := by
  rw [isRequired, List.contains_iff_mem]

theorem Settled.requiredClosed (hsettled : model.Settled model.checks) :
    model.RequiredClosed where
  satisfied := by
    intro id hid
    obtain ⟨hknown, _, hprereqs⟩ := hsettled.required_closed (isRequired_iff.mp hid) .refl
    exact ⟨hknown, hprereqs⟩
  closed := by
    intro id hid other hpath
    exact (hsettled.required_closed (isRequired_iff.mp hid) hpath).2.1
  acyclic := by
    intro id hid
    exact hsettled.acyclic id (isRequired_iff.mp hid)

/-- The parcel that a required one has found for a prereq is still the one that
the prereq names, however many parcels have joined since. -/
theorem RequiredClosed.last (hclosed : model.RequiredClosed) (hlasts : Lasts model after) :
    RequiredLast model after where
  required := by
    intro id hid
    exact isRequired_iff.mpr (hlasts.required (isRequired_iff.mp hid))
  prereqs_eq := by
    intro id hid
    rw [hlasts.toParcel_eq (hclosed.satisfied id hid).1]
  satisfied := by
    intro id hid prereq hprereq found
    obtain ⟨known, hknown, _⟩ := (hclosed.satisfied id hid).2 prereq hprereq
    constructor
    · exact hlasts.satisfies
    · intro hfound
      have hsame : found = known := by
        have hnamed := (hlasts.satisfies hknown).registered
        rw [hfound.registered] at hnamed
        exact Option.some.inj hnamed
      exact hsame ▸ hknown

/-- Whatever calls have led to a model, failing checks included, its required
parcels are closed, and they stay so until the model is emptied. -/
theorem required_closed_and_last (hreachable : model.Reachable) :
    model.RequiredClosed ∧ ∀ after, Relation.ReflTransGen Continues model after →
      after.RequiredClosed ∧ RequiredLast model after := by
  have hsound := hreachable.sound
  have hclosed := hsound.settled.requiredClosed
  refine ⟨hclosed, ?_⟩
  intro after hsteps
  obtain ⟨hafter, hlasts⟩ := hsound.lasts hsteps
  exact ⟨hafter.settled.requiredClosed, hclosed.last hlasts⟩

/-! ## A check that stops half-way -/

/-- Requires `Bee`, which is there, and then `Hornet`, which is not. -/
def wasp : Parcel :=
  { ant with name := "Wasp", nickname := "Wasp", prereqs := [⟨"Bee", none⟩, ⟨"Hornet", none⟩] }

def hornet : Parcel :=
  { ant with name := "Hornet", nickname := "Hornet", prereqs := [⟨"Wasp", none⟩] }

theorem wasp_wellFormed : wasp.WellFormed where
  name := by decide
  nickname := by decide
  prereqs := by unfold Parcel.NamesParcels; decide
  installed := fun _ => rfl

theorem hornet_wellFormed : hornet.WellFormed where
  name := by decide
  nickname := by decide
  prereqs := by unfold Parcel.NamesParcels; decide
  installed := fun _ => rfl

def waspNest : Model :=
  leftBy ((Call.register wasp).run hive)

/-- The check of `Wasp` has passed `Bee` and `Ant` and then failed. -/
def halfCheckedNest : Model :=
  leftBy ((Call.checkPrereqs ⟨2⟩).run waspNest)

/-- `Hornet` has joined since, which closes a cycle of prereqs. -/
def laterNest : Model :=
  leftBy ((Call.register hornet).run halfCheckedNest)

theorem halfCheckedNest_reachable : halfCheckedNest.Reachable := by
  have hhive : hive.Reachable :=
    .call (.call .empty ant_wellFormed) bee_wellFormed
  have hnest : waspNest.Reachable := .call hhive wasp_wellFormed
  exact .call hnest (mem_parcelIds.mpr (by decide))

theorem halfCheckedNest_required_closed_and_last :
    Ends (checkPrereqs ⟨2⟩ waspNest) (fun _ _ => False)
        (fun error _ => error = .unresolvedPrereq "Hornet" "Wasp") ∧
      halfCheckedNest.Reachable ∧ halfCheckedNest.RequiredClosed ∧
      halfCheckedNest.parcelIds.filter halfCheckedNest.isRequired = [⟨0⟩, ⟨1⟩] ∧
      Relation.ReflTransGen Continues halfCheckedNest laterNest ∧
      laterNest.RequiredClosed ∧ RequiredLast halfCheckedNest laterNest ∧
      OnCycle laterNest.prereqParcels ⟨2⟩ := by
  have hlater : Continues halfCheckedNest laterNest :=
    ⟨.register hornet, hornet_wellFormed, by simp, rfl⟩
  have hcycle : OnCycle laterNest.prereqParcels ⟨2⟩ :=
    .head (show ⟨3⟩ ∈ laterNest.prereqParcels ⟨2⟩ by decide)
      (.single (show ⟨2⟩ ∈ laterNest.prereqParcels ⟨3⟩ by decide))
  obtain ⟨hclosed, hlast⟩ := required_closed_and_last halfCheckedNest_reachable
  obtain ⟨hafter, hrequired⟩ := hlast laterNest (.single hlater)
  exact ⟨by decide, halfCheckedNest_reachable, hclosed, by decide, .single hlater,
    hafter, hrequired, hcycle⟩

end Parcels.Model
