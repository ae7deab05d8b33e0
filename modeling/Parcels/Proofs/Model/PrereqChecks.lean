import Mathlib.Data.List.Chain
import Mathlib.Data.List.Perm.Subperm
import Parcels.Proofs.Action
import Parcels.Proofs.Model.Parcels
import Parcels.Proofs.Version.Order

/-!
# Prerequisite checks

A walk leaves the required parcels closed: each of their prereqs is satisfied
by a required parcel, and none of them lies on a cycle.  This holds after a
walk that failed as well, and it is what makes it safe not to visit a required
parcel again.
-/

namespace Parcels.Model

open Parcels.Graph

/-- A registered parcel that will do for a prereq. -/
structure Satisfies (model : Model) (prereq : Prereq) (found : ParcelId) :
    Prop where
  registered : model.parcelNamed? prereq.name = some found
  version : compare (model.parcelAt found).version prereq.version ≠ .lt
  majorVersion : prereq.acceptsAnyVersion ∨
    compare (model.parcelAt found).majorVersion prereq.version ≠ .gt

/-- What a check has established so far.  The parcels under way have no part
in it but are kept apart from the required ones. -/
structure Settled (model : Model) (checks : Checks) : Prop where
  required_known : checks.required ⊆ model.parcelIds
  underway_known : checks.underway ⊆ model.parcelIds
  underway_nodup : checks.underway.Nodup
  apart : ∀ id ∈ checks.required, id ∉ checks.underway
  satisfied : ∀ id ∈ checks.required, ∀ prereq ∈ (model.parcelAt id).prereqs,
    ∃ found ∈ checks.required, model.Satisfies prereq found
  acyclic : ∀ id ∈ checks.required, ¬ OnCycle model.prereqParcels id

/-- A defect among the parcels that `root` leads to, as an error names it. -/
def Describes (model : Model) (root : ParcelId) : Error → Prop
  | .unresolvedPrereq name requiredBy => ∃ holder, ∃ prereq,
      Reaches model.prereqParcels root holder ∧
      (model.parcelAt holder).name = requiredBy ∧
      prereq ∈ (model.parcelAt holder).prereqs ∧ prereq.name = name ∧
      model.parcelNamed? name = none
  | .versionTooLow name requiredBy found required => ∃ holder, ∃ prereq, ∃ id,
      Reaches model.prereqParcels root holder ∧
      (model.parcelAt holder).name = requiredBy ∧
      prereq ∈ (model.parcelAt holder).prereqs ∧ prereq.name = name ∧
      model.parcelNamed? name = some id ∧
      (model.parcelAt id).version.text = found ∧ prereq.version.text = required ∧
      compare (model.parcelAt id).version prereq.version = .lt
  | .majorVersionTooHigh name requiredBy found required =>
      ∃ holder, ∃ prereq, ∃ id,
      Reaches model.prereqParcels root holder ∧
      (model.parcelAt holder).name = requiredBy ∧
      prereq ∈ (model.parcelAt holder).prereqs ∧ prereq.name = name ∧
      model.parcelNamed? name = some id ∧
      (model.parcelAt id).majorVersion.text = found ∧
      prereq.version.text = required ∧ prereq.acceptsAnyVersion = false ∧
      compare (model.parcelAt id).majorVersion prereq.version = .gt
  | .prereqCycle names => ∃ cycle : List ParcelId,
      names = cycle.map (fun id => (model.parcelAt id).name) ∧
      2 ≤ cycle.length ∧ cycle.head? = cycle.getLast? ∧
      cycle.IsChain (Edge model.prereqParcels) ∧
      ∀ id ∈ cycle, Reaches model.prereqParcels root id
  | _ => False

variable {model : Model}

/-! ## One prereq -/

/-- A prereq is satisfied by the registered parcel of its name, if the version
fits. -/
theorem satisfy_eq_ok_iff {requiredBy : String} {prereq : Prereq}
    {found : ParcelId} :
    model.satisfy requiredBy prereq = .ok found ↔ model.Satisfies prereq found := by
  unfold satisfy
  cases hnamed : model.parcelNamed? prereq.name with
  | none =>
      simp only [reduceCtorEq, false_iff]
      exact fun hsatisfies => by simpa [hnamed] using hsatisfies.registered
  | some id =>
      simp only [Version.isBelow, Bool.and_eq_true, beq_iff_eq]
      constructor
      · intro hok
        split at hok
        · simp at hok
        · next hversion =>
          split at hok
          · simp at hok
          · next hmajor =>
            obtain rfl : id = found := by simpa using hok
            refine ⟨hnamed, hversion, ?_⟩
            rw [Decidable.or_iff_not_imp_left]
            intro hany hgreater
            refine hmajor ⟨by simpa using hany, ?_⟩
            rw [← Version.swap_compare, hgreater]
            rfl
      · intro hsatisfies
        obtain rfl : id = found := by
          simpa [hnamed] using hsatisfies.registered
        rw [if_neg hsatisfies.version, if_neg]
        rintro ⟨hany, hmajor⟩
        rcases hsatisfies.majorVersion with haccepts | hnot
        · simp [haccepts] at hany
        · rw [← Version.swap_compare, hmajor] at hnot
          exact hnot rfl

theorem describes_of_satisfy {root holder : ParcelId} {prereq : Prereq}
    {error : Error} (hpath : Reaches model.prereqParcels root holder)
    (hprereq : prereq ∈ (model.parcelAt holder).prereqs)
    (herror : model.satisfy (model.parcelAt holder).name prereq = .error error) :
    model.Describes root error := by
  unfold satisfy at herror
  cases hnamed : model.parcelNamed? prereq.name with
  | none =>
      simp only [hnamed, Except.error.injEq] at herror
      subst herror
      exact ⟨holder, prereq, hpath, rfl, hprereq, rfl, hnamed⟩
  | some id =>
      simp only [hnamed] at herror
      split at herror
      · next hversion =>
        simp only [Except.error.injEq] at herror
        subst herror
        exact ⟨holder, prereq, id, hpath, rfl, hprereq, rfl, hnamed, rfl, rfl,
          by simpa [Version.isBelow] using hversion⟩
      · split at herror
        · next hmajor =>
          simp only [Except.error.injEq] at herror
          subst herror
          simp only [Bool.and_eq_true, Bool.not_eq_true'] at hmajor
          exact ⟨holder, prereq, id, hpath, rfl, hprereq, rfl, hnamed, rfl, rfl,
            hmajor.1, Version.isBelow_iff.mp hmajor.2⟩
        · simp at herror

theorem Satisfies.edge {id found : ParcelId} {prereq : Prereq}
    (hsatisfies : model.Satisfies prereq found)
    (hprereq : prereq ∈ (model.parcelAt id).prereqs) :
    Edge model.prereqParcels id found :=
  mem_prereqParcels.mpr ⟨prereq, hprereq, hsatisfies.registered⟩

/-! ## Entering and leaving a parcel -/

/-- The required parcels lead to required parcels only. -/
theorem Settled.required_of_reaches {checks : Checks} {id other : ParcelId}
    (hsettled : model.Settled checks) (hid : id ∈ checks.required)
    (hpath : Reaches model.prereqParcels id other) : other ∈ checks.required := by
  refine hpath.within (· ∈ checks.required) ?_ hid
  intro node hnode next hnext
  obtain ⟨prereq, hprereq, hnamed⟩ := mem_prereqParcels.mp hnext
  obtain ⟨found, hfound, hsatisfies⟩ := hsettled.satisfied node hnode prereq hprereq
  rw [hsatisfies.registered] at hnamed
  obtain rfl : found = next := by simpa using hnamed
  exact hfound

/-- What a check has passed is required with all that it leads to. -/
theorem Settled.required_closed {id other : ParcelId}
    (hsettled : model.Settled model.checks) (hid : id ∈ model.checks.required)
    (hpath : Reaches model.prereqParcels id other) :
    other ∈ model.parcelIds ∧ model.isRequired other = true ∧
      ∀ prereq ∈ (model.parcelAt other).prereqs,
        ∃ found, model.Satisfies prereq found ∧ model.isRequired found = true := by
  have hother := hsettled.required_of_reaches hid hpath
  refine ⟨hsettled.required_known hother, by simpa [isRequired] using hother,
    fun prereq hprereq => ?_⟩
  obtain ⟨found, hfound, hsatisfies⟩ := hsettled.satisfied other hother prereq hprereq
  exact ⟨found, hsatisfies, by simpa [isRequired] using hfound⟩

/-- No parcel is left to enter when as many are under way as there are. -/
theorem Settled.mem_underway_of_full {checks : Checks} {id : ParcelId}
    (hsettled : model.Settled checks) (hid : id ∈ model.parcelIds)
    (hfull : model.parcels.size ≤ checks.underway.length) : id ∈ checks.underway :=
  ((List.subperm_of_subset hsettled.underway_nodup
    hsettled.underway_known).perm_of_length_le (by simpa using hfull)).symm.subset hid

theorem Settled.enter {checks : Checks} {id : ParcelId}
    (hsettled : model.Settled checks) (hid : id ∈ model.parcelIds)
    (hrequired : id ∉ checks.required) (hunderway : id ∉ checks.underway) :
    model.Settled { checks with underway := id :: checks.underway } where
  required_known := hsettled.required_known
  underway_known := List.cons_subset.mpr ⟨hid, hsettled.underway_known⟩
  underway_nodup := List.nodup_cons.mpr ⟨hunderway, hsettled.underway_nodup⟩
  apart := by
    intro other hother hmem
    rcases List.mem_cons.mp hmem with rfl | hbefore
    · exact hrequired hother
    · exact hsettled.apart other hother hbefore
  satisfied := hsettled.satisfied
  acyclic := hsettled.acyclic

/-- What checks of the parcels `starts` add when they pass. -/
structure Passed (model : Model) (before after : Checks)
    (starts : List ParcelId) : Prop where
  settled : model.Settled after
  underway_eq : after.underway = before.underway
  required_iff : ∀ id, id ∈ after.required ↔ id ∈ before.required ∨
    ∃ start ∈ starts, Reaches model.prereqParcels start id

theorem Passed.nil {checks : Checks} (hsettled : model.Settled checks) :
    model.Passed checks checks [] :=
  ⟨hsettled, rfl, by simp⟩

theorem Passed.snoc {first second third : Checks} {starts : List ParcelId}
    {next : ParcelId} (hfirst : model.Passed first second starts)
    (hsecond : model.Passed second third [next]) :
    model.Passed first third (starts ++ [next]) where
  settled := hsecond.settled
  underway_eq := hsecond.underway_eq.trans hfirst.underway_eq
  required_iff := by
    intro id
    rw [hsecond.required_iff, hfirst.required_iff]
    simp only [List.mem_append, List.mem_singleton, exists_eq_left]
    constructor
    · rintro ((hbefore | ⟨start, hstart, hpath⟩) | hpath)
      · exact .inl hbefore
      · exact .inr ⟨start, .inl hstart, hpath⟩
      · exact .inr ⟨next, .inr rfl, hpath⟩
    · rintro (hbefore | ⟨start, hstart | rfl, hpath⟩)
      · exact .inl (.inl hbefore)
      · exact .inl (.inr ⟨start, hstart, hpath⟩)
      · exact .inr hpath

section Leave

variable {before after : Checks} {id : ParcelId}
  (hpassed : model.Passed { before with underway := id :: before.underway }
    after (model.prereqParcels id))

include hpassed

/-- Had a path led back to the parcel, it would be required and under way at
once. -/
theorem Passed.not_mem_required : id ∉ after.required := by
  intro hrequired
  apply hpassed.settled.apart id hrequired
  rw [hpassed.underway_eq]
  exact List.mem_cons_self

/-- A parcel whose check passes is on no cycle of prereqs. -/
theorem Passed.acyclic : ¬ OnCycle model.prereqParcels id := by
  intro hcycle
  obtain ⟨next, hnext, hback⟩ := Relation.TransGen.head'_iff.mp hcycle
  have hrequired : next ∈ after.required :=
    (hpassed.required_iff next).mpr (.inr ⟨next, hnext, .refl⟩)
  exact hpassed.not_mem_required
    (hpassed.settled.required_of_reaches hrequired hback)

theorem Passed.settled_leave (hid : id ∈ model.parcelIds)
    (hsatisfied : ∀ prereq ∈ (model.parcelAt id).prereqs,
      ∃ found ∈ after.required, model.Satisfies prereq found) :
    model.Settled { required := id :: after.required
                    underway := before.underway } := by
  have hsettled := hpassed.settled
  have hnodup := hsettled.underway_nodup
  have hknown := hsettled.underway_known
  have hapart := hsettled.apart
  rw [hpassed.underway_eq] at hnodup hknown hapart
  refine ⟨?_, ?_, hnodup.of_cons, ?_, ?_, ?_⟩
  · exact List.cons_subset.mpr ⟨hid, hsettled.required_known⟩
  · exact (List.cons_subset.mp hknown).2
  · intro other hother
    rcases List.mem_cons.mp hother with rfl | hbefore
    · exact (List.nodup_cons.mp hnodup).1
    · exact fun hmem => hapart other hbefore (List.mem_cons_of_mem _ hmem)
  · intro other hother prereq hprereq
    have hfound : ∃ found ∈ after.required, model.Satisfies prereq found := by
      rcases List.mem_cons.mp hother with rfl | hbefore
      · exact hsatisfied prereq hprereq
      · exact hsettled.satisfied other hbefore prereq hprereq
    obtain ⟨found, hrequired, hsatisfies⟩ := hfound
    exact ⟨found, List.mem_cons_of_mem _ hrequired, hsatisfies⟩
  · intro other hother
    rcases List.mem_cons.mp hother with rfl | hbefore
    · exact hpassed.acyclic
    · exact hsettled.acyclic other hbefore

/-- A parcel is required once everything that it requires is. -/
theorem Passed.leave (hid : id ∈ model.parcelIds)
    (hsatisfied : ∀ prereq ∈ (model.parcelAt id).prereqs,
      ∃ found ∈ after.required, model.Satisfies prereq found) :
    model.Passed before
      { required := id :: after.required
        underway := after.underway.erase id } [id] := by
  have hunderway : after.underway.erase id = before.underway := by
    rw [hpassed.underway_eq, List.erase_cons_head]
  rw [hunderway]
  refine ⟨hpassed.settled_leave hid hsatisfied, rfl, fun other => ?_⟩
  simp only [List.mem_cons, List.not_mem_nil, or_false, exists_eq_left]
  rw [hpassed.required_iff]
  constructor
  · rintro (rfl | hbefore | ⟨next, hnext, hpath⟩)
    · exact .inr .refl
    · exact .inl hbefore
    · exact .inr (.head hnext hpath)
  · rintro (hbefore | hpath)
    · exact .inr (.inl hbefore)
    · rcases hpath.cases_head with rfl | ⟨next, hnext, hrest⟩
      · exact .inl rfl
      · exact .inr (.inr ⟨next, hnext, hrest⟩)

end Leave

/-! ## The walk -/

/-- What the visit of a parcel does with one of its prereqs. -/
def checkPrereq (model : Model) (bound : Nat) (path : List ParcelId)
    (id : ParcelId) (prereq : Prereq) : Action Checks Unit :=
  match model.satisfy (model.parcelAt id).name prereq with
  | .error error => throw error
  | .ok required => model.checkFrom bound (path ++ [id]) required

theorem checkFrom_eq (bound : Nat) (path : List ParcelId) (id : ParcelId)
    (checks : Checks) :
    model.checkFrom bound path id checks =
      if id ∈ checks.required then .ok () checks
      else if id ∈ checks.underway then .error (model.cycleError path id) checks
      else match bound with
        | 0 => .ok () checks
        | bound + 1 =>
            (do (model.parcelAt id).prereqs.forM (model.checkPrereq bound path id)
                modify fun checks =>
                  { required := id :: checks.required
                    underway := checks.underway.erase id } : Action Checks Unit)
              { checks with underway := id :: checks.underway } := by
  cases bound <;>
    unfold checkFrom <;>
    rw [bind_get] <;>
    by_cases hrequired : id ∈ checks.required <;>
    by_cases hunderway : id ∈ checks.underway <;>
    simp only [hrequired, hunderway, if_true, if_false] <;>
    rfl

/-- The walk came along `path` from `root` to the parcel. -/
structure Came (model : Model) (root : ParcelId) (path : List ParcelId)
    (id : ParcelId) : Prop where
  chain : (path ++ [id]).IsChain (Edge model.prereqParcels)
  reaches : ∀ other ∈ path ++ [id], Reaches model.prereqParcels root other

theorem Came.start (id : ParcelId) : model.Came id [] id where
  chain := List.isChain_singleton _
  reaches := by
    intro other hother
    obtain rfl : other = id := by simpa using hother
    exact .refl

theorem Came.step {root id next : ParcelId} {path : List ParcelId}
    (hcame : model.Came root path id) (hedge : Edge model.prereqParcels id next) :
    model.Came root (path ++ [id]) next where
  chain := by
    rw [List.isChain_append]
    refine ⟨hcame.chain, List.isChain_singleton _, ?_⟩
    simp only [List.getLast?_concat, List.head?_cons, Option.mem_def,
      Option.some.injEq]
    rintro _ rfl _ rfl
    exact hedge
  reaches := by
    intro other hother
    rcases List.mem_append.mp hother with hbefore | hlast
    · exact hcame.reaches other hbefore
    · obtain rfl := List.mem_singleton.mp hlast
      exact (hcame.reaches id (by simp)).tail hedge

/-- A parcel met again on the path closes a cycle of prereqs. -/
theorem Came.describes_cycleError {root id : ParcelId} {path : List ParcelId}
    (hcame : model.Came root path id) (hagain : id ∈ path) :
    model.Describes root (model.cycleError path id) := by
  obtain ⟨start, hstart⟩ := Option.isSome_iff_exists.mp
    (List.isSome_idxOf?.mpr hagain)
  obtain ⟨hlength, hget, _⟩ := List.idxOf?_eq_some_iff.mp hstart
  have hdrop : path.drop start = id :: path.drop (start + 1) := by
    rw [List.drop_eq_getElem_cons hlength, hget]
  have hcycle : (path ++ [id]).drop start = path.drop start ++ [id] :=
    List.drop_append_of_le_length (Nat.le_of_lt hlength)
  refine ⟨path.drop start ++ [id], ?_, ?_, ?_, ?_, ?_⟩
  · simp [hstart]
  · simp [hdrop]
  · rw [List.getLast?_concat, hdrop]
    rfl
  · exact hcycle ▸ hcame.chain.drop start
  · intro other hother
    exact hcame.reaches other (List.mem_of_mem_drop (hcycle ▸ hother))

/-- What checks that stop with an error leave behind. -/
structure Stopped (model : Model) (root : ParcelId) (path : List ParcelId)
    (before : Checks) (error : Error) (after : Checks) : Prop where
  settled : model.Settled after
  required_subset : before.required ⊆ after.required
  underway_subset : before.underway ⊆ after.underway
  describes : before.underway = path.reverse → model.Describes root error

theorem Passed.required_subset {before after : Checks} {starts : List ParcelId}
    (hpassed : model.Passed before after starts) :
    before.required ⊆ after.required :=
  fun id hid => (hpassed.required_iff id).mpr (.inl hid)

theorem Passed.of_required {checks : Checks} {id : ParcelId}
    (hsettled : model.Settled checks) (hid : id ∈ checks.required) :
    model.Passed checks checks [id] where
  settled := hsettled
  underway_eq := rfl
  required_iff := by
    intro other
    simp only [List.mem_singleton, exists_eq_left, iff_self_or]
    exact hsettled.required_of_reaches hid

theorem Came.stopped_of_underway {root id : ParcelId} {path : List ParcelId}
    {checks : Checks} (hcame : model.Came root path id)
    (hsettled : model.Settled checks) (hunderway : id ∈ checks.underway) :
    model.Stopped root path checks (model.cycleError path id) checks where
  settled := hsettled
  required_subset := List.Subset.refl _
  underway_subset := List.Subset.refl _
  describes := fun hpath =>
    hcame.describes_cycleError (by simpa [hpath] using hunderway)

theorem Stopped.of_passed {root : ParcelId} {path starts : List ParcelId}
    {first second third : Checks} {error : Error}
    (hpassed : model.Passed first second starts)
    (hstopped : model.Stopped root path second error third) :
    model.Stopped root path first error third where
  settled := hstopped.settled
  required_subset :=
    List.Subset.trans hpassed.required_subset hstopped.required_subset
  underway_subset := hpassed.underway_eq ▸ hstopped.underway_subset
  describes := fun hpath => hstopped.describes (hpassed.underway_eq.trans hpath)

theorem Stopped.of_enter {root id : ParcelId} {path : List ParcelId}
    {before after : Checks} {error : Error}
    (hstopped : model.Stopped root (path ++ [id])
      { before with underway := id :: before.underway } error after) :
    model.Stopped root path before error after where
  settled := hstopped.settled
  required_subset := hstopped.required_subset
  underway_subset :=
    List.Subset.trans (List.subset_cons_self _ _) hstopped.underway_subset
  describes := fun hpath => hstopped.describes (by simp [hpath])

/-- A check of the prereqs of a parcel one after another, if the check of each
required parcel does what it should. -/
theorem forM_checkPrereq {root id : ParcelId} {path : List ParcelId}
    {bound : Nat} {entered : Checks} (hsettled : model.Settled entered)
    (hcame : model.Came root path id)
    (hroom : model.parcels.size ≤ entered.underway.length + bound)
    (hcheck : ∀ found checks, model.Settled checks → found ∈ model.parcelIds →
      model.Came root (path ++ [id]) found →
      model.parcels.size ≤ checks.underway.length + bound →
        Ends (model.checkFrom bound (path ++ [id]) found checks)
          (fun _ after => model.Passed checks after [found])
          (model.Stopped root (path ++ [id]) checks)) :
    Ends ((model.parcelAt id).prereqs.forM (model.checkPrereq bound path id) entered)
      (fun _ after => model.Passed entered after (model.prereqParcels id) ∧
        ∀ prereq ∈ (model.parcelAt id).prereqs,
          ∃ found ∈ after.required, model.Satisfies prereq found)
      (model.Stopped root (path ++ [id]) entered) := by
  refine Ends.forM (fun done after =>
    model.Passed entered after
        (done.filterMap fun prereq => model.parcelNamed? prereq.name) ∧
      ∀ prereq ∈ done, ∃ found ∈ after.required, model.Satisfies prereq found)
    ?_ ⟨Passed.nil hsettled, by simp⟩
  rintro done prereq rest checks hprereqs ⟨hpassed, hsatisfied⟩
  have hprereq : prereq ∈ (model.parcelAt id).prereqs := by simp [hprereqs]
  unfold checkPrereq
  cases hsatisfy : model.satisfy (model.parcelAt id).name prereq with
  | error error =>
      exact Stopped.of_passed hpassed ⟨hpassed.settled, List.Subset.refl _,
        List.Subset.refl _, fun _ => describes_of_satisfy
          (hcame.reaches id (by simp)) hprereq hsatisfy⟩
  | ok found =>
      have hsatisfies := satisfy_eq_ok_iff.mp hsatisfy
      refine (hcheck found checks hpassed.settled
        (parcelNamed?_eq_some hsatisfies.registered).1
        (hcame.step (hsatisfies.edge hprereq))
        (by rw [hpassed.underway_eq]; exact hroom)).mono ?_
        fun _ _ hstopped => Stopped.of_passed hpassed hstopped
      intro _ after hafter
      refine ⟨?_, ?_⟩
      · rw [List.filterMap_append]
        simpa [hsatisfies.registered] using hpassed.snoc hafter
      · intro other hother
        rcases List.mem_append.mp hother with hdone | hlast
        · obtain ⟨earlier, hearlier, hdo⟩ := hsatisfied other hdone
          exact ⟨earlier, hafter.required_subset hearlier, hdo⟩
        · obtain rfl := List.mem_singleton.mp hlast
          exact ⟨found, (hafter.required_iff found).mpr
            (.inr ⟨found, by simp, .refl⟩), hsatisfies⟩

/-- The bound is never met: were every parcel under way, the next one would
close a cycle. -/
theorem checkFrom_ends {root : ParcelId} (bound : Nat) (path : List ParcelId)
    (id : ParcelId) (checks : Checks) (hsettled : model.Settled checks)
    (hid : id ∈ model.parcelIds) (hcame : model.Came root path id)
    (hroom : model.parcels.size ≤ checks.underway.length + bound) :
    Ends (model.checkFrom bound path id checks)
      (fun _ after => model.Passed checks after [id])
      (model.Stopped root path checks) := by
  induction bound generalizing path id checks with
  | zero =>
      have hall := hsettled.mem_underway_of_full hid hroom
      have hrequired : id ∉ checks.required := fun hmem =>
        hsettled.apart id hmem hall
      rw [checkFrom_eq, if_neg hrequired, if_pos hall]
      exact hcame.stopped_of_underway hsettled hall
  | succ bound ih =>
      rw [checkFrom_eq]
      split
      · next hrequired => exact Passed.of_required hsettled hrequired
      · next hrequired =>
        split
        · next hunderway => exact hcame.stopped_of_underway hsettled hunderway
        · next hunderway =>
          have hentered := hsettled.enter hid hrequired hunderway
          have hloop := forM_checkPrereq hentered hcame
            (by simp only [List.length_cons]; omega)
            fun found inner hinner hfound hfurther hspace =>
              ih (path ++ [id]) found inner hinner hfound hfurther hspace
          refine Ends.bind (hloop.mono ?_ fun _ _ => Stopped.of_enter)
          rintro _ after ⟨hpassed, hsatisfied⟩
          exact hpassed.leave hid hsatisfied

/-- The check of a registered parcel, in a model whose checks are settled. -/
theorem checkPrereqs_ends {id : ParcelId} (hsettled : model.Settled model.checks)
    (hid : id ∈ model.parcelIds) :
    Ends (checkPrereqs id model)
      (fun _ after => ∃ checks, after = { model with checks := checks } ∧
        model.Passed model.checks checks [id])
      (fun error after => ∃ checks, after = { model with checks := checks } ∧
        model.Stopped id [] model.checks error checks) := by
  have hwalk := checkFrom_ends model.parcels.size [] id model.checks hsettled hid
    (.start id) (Nat.le_add_left _ _)
  unfold checkPrereqs
  cases hrun : model.checkFrom model.parcels.size [] id model.checks with
  | ok _ checks =>
      rw [hrun] at hwalk
      exact ⟨checks, rfl, hwalk⟩
  | error error checks =>
      rw [hrun] at hwalk
      exact ⟨checks, rfl, hwalk⟩

/-! ## Models that grow -/

section Growth

variable {other : Model} {checks : Checks}

theorem Satisfies.congr {prereq : Prereq} {found : ParcelId}
    (hsatisfies : model.Satisfies prereq found)
    (hspecs : other.specs = model.specs) : other.Satisfies prereq found where
  registered := (parcelNamed?_congr hspecs _).trans hsatisfies.registered
  version := toParcel_congr hspecs found ▸ hsatisfies.version
  majorVersion := toParcel_congr hspecs found ▸ hsatisfies.majorVersion

/-- Checks are about the descriptions of parcels, not about their classes. -/
theorem Settled.congr (hsettled : model.Settled checks)
    (hspecs : other.specs = model.specs) : other.Settled checks where
  required_known := parcelIds_congr hspecs ▸ hsettled.required_known
  underway_known := parcelIds_congr hspecs ▸ hsettled.underway_known
  underway_nodup := hsettled.underway_nodup
  apart := hsettled.apart
  satisfied := by
    intro id hid prereq hprereq
    rw [toParcel_congr hspecs] at hprereq
    obtain ⟨found, hfound, hsatisfies⟩ := hsettled.satisfied id hid prereq hprereq
    exact ⟨found, hfound, hsatisfies.congr hspecs⟩
  acyclic := by
    rw [prereqParcels_congr hspecs]
    exact hsettled.acyclic

/-- A parcel that joins neither replaces a parcel that satisfies a prereq nor
gives a required parcel a new prereq. -/
theorem Settled.joined {parcel : RegisteredParcel} (hsettled : model.Settled checks)
    (hjoined : other.parcels = model.parcels.push parcel) :
    other.Settled checks := by
  have hsame : ∀ id ∈ checks.required, other.parcelAt id = model.parcelAt id :=
    fun id hid => parcelAt_of_joined hjoined (hsettled.required_known hid)
  refine ⟨?_, ?_, hsettled.underway_nodup, hsettled.apart, ?_, ?_⟩
  · exact fun id hid => mem_parcelIds_of_joined hjoined (hsettled.required_known hid)
  · exact fun id hid => mem_parcelIds_of_joined hjoined (hsettled.underway_known hid)
  · intro id hid prereq hprereq
    rw [hsame id hid] at hprereq
    obtain ⟨found, hfound, hsatisfies⟩ := hsettled.satisfied id hid prereq hprereq
    refine ⟨found, hfound, ?_, ?_, ?_⟩
    · exact parcelNamed?_of_joined hjoined hsatisfies.registered
    · exact hsame found hfound ▸ hsatisfies.version
    · exact hsame found hfound ▸ hsatisfies.majorVersion
  · intro id hid hcycle
    refine hsettled.acyclic id hid (hcycle.within (· ∈ checks.required) ?_ hid).2
    intro node hnode next hnext
    obtain ⟨prereq, hprereq, hnamed⟩ := mem_prereqParcels.mp hnext
    rw [hsame node hnode] at hprereq
    obtain ⟨found, hfound, hsatisfies⟩ :=
      hsettled.satisfied node hnode prereq hprereq
    rw [parcelNamed?_of_joined hjoined hsatisfies.registered] at hnamed
    obtain rfl : found = next := by simpa using hnamed
    exact ⟨hfound, hsatisfies.edge hprereq⟩

end Growth

end Parcels.Model
