import Parcels.Proofs.Model.Calls

/-!
# The closure of prereqs

A check passes just when everything that the parcel leads to is satisfied and
free of cycles.  It then adds what the parcel leads to, and an error names a
defect that is there.
-/

namespace Parcels.Model

open Parcels.Graph

/-- Every prereq of every parcel that `id` leads to is satisfied, and none of
these parcels requires itself. -/
structure ClosureHolds (model : Model) (id : ParcelId) : Prop where
  satisfied : ∀ holder, Reaches model.prereqParcels id holder →
    ∀ prereq ∈ (model.parcelAt holder).prereqs,
      ∃ found, model.Satisfies prereq found
  acyclic : ∀ holder, Reaches model.prereqParcels id holder →
    ¬ OnCycle model.prereqParcels holder

variable {model : Model} {id : ParcelId}

theorem Passed.closureHolds {before after : Checks}
    (hpassed : model.Passed before after [id]) : model.ClosureHolds id := by
  have hrequired : ∀ holder, Reaches model.prereqParcels id holder →
      holder ∈ after.required := fun holder hpath =>
    (hpassed.required_iff holder).mpr (.inr ⟨id, by simp, hpath⟩)
  refine ⟨fun holder hpath prereq hprereq => ?_, fun holder hpath => ?_⟩
  · obtain ⟨found, _, hsatisfies⟩ :=
      hpassed.settled.satisfied holder (hrequired holder hpath) prereq hprereq
    exact ⟨found, hsatisfies⟩
  · exact hpassed.settled.acyclic holder (hrequired holder hpath)

/-- A closed chain of edges is a cycle. -/
theorem onCycle_of_isChain {first second : ParcelId} {rest : List ParcelId}
    (hclosed : some first = (first :: second :: rest).getLast?)
    (hchain : (first :: second :: rest).IsChain (Edge model.prereqParcels)) :
    OnCycle model.prereqParcels first := by
  obtain ⟨hedge, hfurther⟩ := List.isChain_cons_cons.mp hchain
  have hlast : (second :: rest).getLast (List.cons_ne_nil _ _) = first := by
    rw [List.getLast?_cons_cons, List.getLast?_eq_some_getLast
      (List.cons_ne_nil _ _)] at hclosed
    exact (Option.some.inj hclosed).symm
  exact Relation.TransGen.head' hedge
    (List.relationReflTransGen_of_exists_isChain_cons rest hfurther hlast)

/-- No error describes a closure that holds. -/
theorem ClosureHolds.not_describes {error : Error}
    (hholds : model.ClosureHolds id) : ¬ model.Describes id error := by
  intro hdescribes
  cases error with
  | unresolvedPrereq name requiredBy =>
      obtain ⟨holder, prereq, hpath, _, hprereq, rfl, hnone⟩ := hdescribes
      obtain ⟨found, hsatisfies⟩ := hholds.satisfied holder hpath prereq hprereq
      simp [hsatisfies.registered] at hnone
  | versionTooLow name requiredBy foundText required =>
      obtain ⟨holder, prereq, other, hpath, _, hprereq, rfl, hnamed, _, _, hlow⟩ :=
        hdescribes
      obtain ⟨found, hsatisfies⟩ := hholds.satisfied holder hpath prereq hprereq
      rw [hsatisfies.registered, Option.some.injEq] at hnamed
      exact hsatisfies.version (hnamed ▸ hlow)
  | majorVersionTooHigh name requiredBy foundText required =>
      obtain ⟨holder, prereq, other, hpath, _, hprereq, rfl, hnamed, _, _, hopen,
        hhigh⟩ := hdescribes
      obtain ⟨found, hsatisfies⟩ := hholds.satisfied holder hpath prereq hprereq
      rw [hsatisfies.registered, Option.some.injEq] at hnamed
      rcases hsatisfies.majorVersion with haccepts | hnot
      · simp [hopen] at haccepts
      · exact hnot (hnamed ▸ hhigh)
  | prereqCycle names =>
      obtain ⟨cycle, _, hlength, hclosed, hchain, hpaths⟩ := hdescribes
      match cycle, hlength with
      | first :: second :: rest, _ =>
          exact hholds.acyclic first (hpaths first (by simp))
            (onCycle_of_isChain hclosed hchain)
  | _ => exact hdescribes

/-- What a check of a registered parcel comes to. -/
structure ChecksClosure (model : Model) (id : ParcelId) : Prop where
  ok_iff : (∃ after, checkPrereqs id model = .ok () after) ↔ model.ClosureHolds id
  required_iff : ∀ after, checkPrereqs id model = .ok () after → ∀ other,
    after.isRequired other ↔
      model.isRequired other ∨ Reaches model.prereqParcels id other
  /-- Only which parcels are required changes. -/
  frame : ∀ after, checkPrereqs id model = .ok () after →
    after = { model with checks := { model.checks with
      required := after.checks.required } }
  describes : ∀ error after, checkPrereqs id model = .error error after →
    model.Describes id error

/-- As long as no check has failed, a check answers for the whole closure of
its parcel, whatever earlier checks have established. -/
theorem checkPrereqs_checks_closure (hunfailed : model.Unfailed)
    (hid : id ∈ model.parcelIds) : model.ChecksClosure id := by
  have hsound := hunfailed.reachable.sound
  have hends := checkPrereqs_ends hsound.settled hid
  have hdescribes : ∀ error after, checkPrereqs id model = .error error after →
      model.Describes id error := by
    intro error after hrun
    rw [hrun] at hends
    obtain ⟨checks, _, hstopped⟩ := hends
    exact hstopped.describes hunfailed.underway_eq_nil
  have hpassed : ∀ after, checkPrereqs id model = .ok () after →
      after = { model with checks := after.checks } ∧
        model.Passed model.checks after.checks [id] := by
    intro after hrun
    rw [hrun] at hends
    obtain ⟨checks, rfl, hpassed⟩ := hends
    exact ⟨rfl, hpassed⟩
  refine ⟨⟨?_, fun hholds => ?_⟩, ?_, ?_, hdescribes⟩
  · rintro ⟨after, hrun⟩
    exact (hpassed after hrun).2.closureHolds
  · cases hrun : checkPrereqs id model with
    | ok _ after => exact ⟨after, rfl⟩
    | error error after =>
        exact absurd (hdescribes error after hrun) hholds.not_describes
  · intro after hrun other
    simpa [isRequired] using (hpassed after hrun).2.required_iff other
  · intro after hrun
    obtain ⟨hafter, hpass⟩ := hpassed after hrun
    simp only [← hpass.underway_eq]
    exact hafter

/-! ## Two parcels -/

def ant : Parcel :=
  { name := "Ant", nickname := "Ant", version := .zero, included := false
    installed := true }

def bee : Parcel :=
  { ant with name := "Bee", nickname := "Bee", prereqs := [⟨"Ant", some .zero⟩] }

theorem ant_wellFormed : ant.WellFormed where
  name := by decide
  nickname := by decide
  prereqs := List.forall_mem_nil _
  installed := fun _ => rfl

theorem bee_wellFormed : bee.WellFormed where
  name := by decide
  nickname := by decide
  prereqs := List.forall_mem_singleton.mpr (by decide)
  installed := fun _ => rfl

/-- The model in which `Ant` and then `Bee`, which requires it, have joined. -/
def hive : Model :=
  leftBy ((Call.register bee).run (leftBy ((Call.register ant).run {})))

theorem hive_checks_closure :
    hive.Unfailed ∧ ⟨1⟩ ∈ hive.parcelIds ∧ hive.ChecksClosure ⟨1⟩ ∧
      Ends (checkPrereqs ⟨1⟩ hive)
        (fun _ after => after.checks.required = [⟨1⟩, ⟨0⟩]) (fun _ _ => False) := by
  have hunfailed : hive.Unfailed :=
    .call (.call .empty ⟨ant_wellFormed, trivial⟩) ⟨bee_wellFormed, trivial⟩
  have hbee : ⟨1⟩ ∈ hive.parcelIds := by decide
  exact ⟨hunfailed, hbee, checkPrereqs_checks_closure hunfailed hbee, by decide⟩

end Parcels.Model
