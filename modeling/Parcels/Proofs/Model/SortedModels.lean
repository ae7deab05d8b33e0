import Parcels.Proofs.Model.OrderedClasses
import Parcels.Proofs.Model.PrereqClosure

/-!
# Sorted models

A sort that has passed keeps its effect for as long as no class joins: the
parcel goes on listing parents first and no class of it is linked anew, since
none lacks a parent.  When every parcel with classes has been sorted, and no
parcel requires itself, all classes are in order.
-/

namespace Parcels.Model

open Parcels.Graph

variable {model after : Model} {id : ParcelId}

/-! ## Full links -/

/-- No class of the parcel lacks a parent that it declares. -/
def FullyLinked (model : Model) (id : ParcelId) : Prop :=
  ∀ child ∈ model.classesOf id, model.parent? child = none →
    (model.classAt child).parentName = none

/-- The class has its link or declares no parent. -/
def NeedsNoLink (model : Model) (child : ClassId) : Prop :=
  model.parent? child = none → (model.classAt child).parentName = none

/-- A class that could be linked needs no link any more. -/
theorem Linkable.needsNoLink {done : List ClassId} {child : ClassId}
    (hlinkable : model.Linkable id child) (hdone : child ∈ done) :
    (model.linking id done).NeedsNoLink child := by
  intro hunlinked
  rw [parent?_linking, if_pos hdone, prospectiveParent?,
    Option.or_eq_none_iff] at hunlinked
  cases hdeclared : (model.classAt child).parentName with
  | none => exact hdeclared
  | some parentName =>
      obtain ⟨parent, hfound, _⟩ := hlinkable hunlinked.1 parentName hdeclared
      simp [declaredParent?, hdeclared, hfound] at hunlinked

/-- Links that others get leave a class that needs none as it is. -/
theorem NeedsNoLink.linking {child : ClassId} (hchild : model.NeedsNoLink child)
    (done : List ClassId) : (model.linking id done).NeedsNoLink child := by
  intro hunlinked
  rw [parent?_linking] at hunlinked
  split at hunlinked
  · exact hchild (Option.or_eq_none_iff.mp hunlinked).1
  · exact hchild hunlinked

theorem fullyLinked_connected
    (hlinkable : ∀ child ∈ model.classesOf id, model.Linkable id child) :
    (model.connected id).FullyLinked id :=
  fun child hchild => (hlinkable child hchild).needsNoLink hchild

theorem FullyLinked.eq_of_makesLinks (hfull : model.FullyLinked id)
    (hlinks : MakesLinks id model after) : after = model := by
  induction hlinks with
  | refl => rfl
  | tail _ hlink ih =>
      subst ih
      cases hlink with
      | link hmember hunlinked hdeclared _ _ =>
          rw [hfull _ hmember hunlinked] at hdeclared
          cases hdeclared

/-! ## What a sort leaves behind -/

/-- The parcel lists parents first, and no further link can change that. -/
structure StaysSorted (model : Model) (id : ParcelId) : Prop where
  parents_first : model.ListsParentsFirst id
  fully_linked : model.FullyLinked id

theorem StaysSorted.congr (hstays : model.StaysSorted id)
    (hpartitioned : model.Partitioned) (hclasses : after.classes = model.classes)
    (hparents : ∀ child, model.owner child = id →
      after.parent? child = model.parent? child)
    (hlist : after.classesOf id = model.classesOf id) : after.StaysSorted id := by
  constructor
  · exact hstays.parents_first.congr hclasses hparents hlist
  · intro child hchild hunlinked
    rw [hlist] at hchild
    rw [hparents child (hpartitioned.owner_of_mem hchild)] at hunlinked
    rw [classAt_congr hclasses]
    exact hstays.fully_linked child hchild hunlinked

/-- Once its classes are linked, the walk through a parcel leaves it sorted. -/
theorem Sound.staysSorted_of_complete {linked : Model} (hsound : model.Sound)
    (hid : id ∈ model.parcelIds) (hlinks : MakesLinks id model linked)
    (hfull : linked.FullyLinked id)
    (hcomplete : (linked.inheritanceOrder id).length =
      (model.classesOf id).length) :
    (linked.setClasses id (linked.inheritanceOrder id)).StaysSorted id := by
  have hsorts := hsound.sorts hid hlinks hcomplete
  constructor
  · exact hsorts.listsParentsFirst (hsound.effect (.sorted hlinks hcomplete))
  · intro child hchild
    apply hfull child
    rw [hlinks.classesOf_eq]
    exact hsorts.perm.subset hchild

theorem Sound.staysSorted (hsound : model.Sound) (hid : id ∈ model.parcelIds)
    (hrun : connectAndSort id model = .ok () after) : after.StaysSorted id := by
  obtain ⟨⟨hlinkable, hcomplete⟩, rfl⟩ :=
    (connectAndSort_connects (hsound.partitioned.nodup id)).of_eq_ok hrun
  have hlinks := makesLinks_connected (hsound.partitioned.nodup id) hlinkable
  exact hsound.staysSorted_of_complete hid hlinks
    (fullyLinked_connected hlinkable) hcomplete

/-- No call disturbs a sorted parcel but one that adds a class or empties the
model. -/
theorem StaysSorted.call {call : Call} (hstays : model.StaysSorted id)
    (hsound : model.Sound) (hvalid : call.Valid model)
    (hadds : ∀ other header, call ≠ .addClass other header)
    (hkeeps : call ≠ .reap) : (leftBy (call.run model)).StaysSorted id := by
  have heffect := Call.effect hvalid
  revert heffect
  generalize leftBy (call.run model) = after
  intro heffect
  cases heffect with
  | registered _ hregister =>
      obtain ⟨_, rfl, _, _⟩ := register_eq_ok hregister
      exact hstays.congr hsound.partitioned rfl (fun _ _ => rfl)
        (classesOf_of_joined rfl rfl id)
  | declared => exact absurd rfl (hadds _ _)
  | checked hknown =>
      obtain ⟨checks, hleft⟩ := checkPrereqs_leaves model _
      rw [hleft]
      exact hstays.congr hsound.partitioned rfl (fun _ _ => rfl) rfl
  | @linked other _ hlinks =>
      by_cases hsame : id = other
      · subst hsame
        rwa [hstays.fully_linked.eq_of_makesLinks hlinks]
      · apply hstays.congr hsound.partitioned
        · rw [hlinks.frame]
        · intro child hchild
          exact hlinks.parent?_eq hsound.partitioned (hchild ▸ hsame)
        · exact hlinks.classesOf_eq id
  | @sorted other linked hlinks hcomplete =>
      by_cases hsame : id = other
      · subst hsame
        obtain rfl := hstays.fully_linked.eq_of_makesLinks hlinks
        exact hsound.staysSorted_of_complete hvalid hlinks hstays.fully_linked
          hcomplete
      · apply hstays.congr hsound.partitioned
        · rw [hlinks.frame]
          rfl
        · intro child hchild
          exact hlinks.parent?_eq hsound.partitioned (hchild ▸ hsame)
        · rw [classesOf_setClasses_of_ne hsame, hlinks.classesOf_eq]
  | noted => exact hstays.congr hsound.partitioned rfl (fun _ _ => rfl) rfl
  | reaped => exact absurd rfl hkeeps

/-! ## Sorts since the last class joined -/

/-- The parcels sorted since the last class joined, when a call follows on
those in `sorted`. -/
def Call.nowSorted (call : Call) (model : Model) (sorted : List ParcelId) :
    List ParcelId :=
  match call, call.run model with
  | .addClass .., .ok .. => []
  | .reap, _ => []
  | .connectAndSort id, .ok .. => id :: sorted
  | _, _ => sorted

/-- A model that valid calls lead to, failing ones included, and the parcels
whose sort has passed since the last class joined. -/
inductive SortedTo : List ParcelId → Model → Prop
  | empty : SortedTo [] {}
  | call {sorted : List ParcelId} {model : Model} {call : Call}
      (before : SortedTo sorted model) (valid : call.Valid model) :
      SortedTo (call.nowSorted model sorted) (leftBy (call.run model))

/-- A parcel counts as sorted because the call has sorted it, or because it did
before and the call has added no class. -/
theorem Call.mem_nowSorted {call : Call} {sorted : List ParcelId}
    (hid : id ∈ call.nowSorted model sorted) :
    (call = .connectAndSort id ∧ ∃ after, call.run model = .ok () after) ∨
      id ∈ sorted ∧ call ≠ .reap ∧
        (leftBy (call.run model) = model ∨
          ∀ other header, call ≠ .addClass other header) := by
  cases call with
  | addClass other header =>
      cases hadd : model.addClass other header with
      | ok added => simp [nowSorted, run_addClass, extend, hadd] at hid
      | error error =>
          simp only [nowSorted, run_addClass, extend, hadd] at hid
          exact .inr ⟨hid, by simp, .inl (by simp [run_addClass, extend, hadd, leftBy])⟩
  | connectAndSort other =>
      cases hrun : (Call.connectAndSort other).run model with
      | error error failed =>
          simp only [nowSorted, hrun] at hid
          exact .inr ⟨hid, by simp, .inr (by simp)⟩
      | ok _ done =>
          simp only [nowSorted, hrun, List.mem_cons] at hid
          rcases hid with rfl | hid
          · exact .inl ⟨rfl, done, rfl⟩
          · exact .inr ⟨hid, by simp, .inr (by simp)⟩
  | reap => simp [nowSorted] at hid
  | register _ | checkPrereqs _ | findShortSymbol _ _ | applyHostData _ _ _
  | takeWarnings => exact .inr ⟨hid, by simp, .inr (by simp)⟩

theorem SortedTo.next {sorted now : List ParcelId} (call : Call)
    (hbefore : SortedTo sorted model) (hvalid : call.Valid model)
    (hnow : call.nowSorted model sorted = now) :
    SortedTo now (leftBy (call.run model)) :=
  hnow ▸ hbefore.call hvalid

theorem SortedTo.reachable {sorted : List ParcelId} (hsorted : SortedTo sorted model) :
    model.Reachable := by
  induction hsorted with
  | empty => exact .empty
  | call _ hvalid ih => exact ih.call hvalid

theorem SortedTo.staysSorted {sorted : List ParcelId}
    (hsorted : SortedTo sorted model) : ∀ id ∈ sorted, model.StaysSorted id := by
  induction hsorted with
  | empty => simp
  | @call sorted model call hbefore hvalid ih =>
      have hsound := hbefore.reachable.sound
      intro id hid
      rcases Call.mem_nowSorted hid with ⟨rfl, after, hrun⟩ | ⟨hold, hkeeps, hadds⟩
      · rw [hrun]
        exact hsound.staysSorted hvalid hrun
      · rcases hadds with hsame | hadds
        · rw [hsame]
          exact ih id hold
        · exact (ih id hold).call hsound hvalid hadds hkeeps

/-! ## All classes in order -/

/-- All classes of a model, each once, are listed after their parents and after
the classes of every parcel that their own requires. -/
structure InOrder (model : Model) : Prop where
  nodup : model.orderedClasses.Nodup
  mem_iff : ∀ id, id ∈ model.orderedClasses ↔ id ∈ model.classIds
  required_first : ∀ id required, ReachesBeyond model.prereqParcels id required →
    ∀ member ∈ model.classesOf id, ∀ other ∈ model.classesOf required,
      Precedes model.orderedClasses other member
  parents_first : model.ParentsFirst

theorem Sound.inOrder (hsound : model.Sound)
    (hacyclic : ∀ id, ¬ OnCycle model.prereqParcels id)
    (hlists : ∀ id, model.ListsParentsFirst id) : model.InOrder := by
  constructor
  · exact nodup_orderedClasses hsound.partitioned
  · exact fun id => mem_orderedClasses hsound.partitioned
  · intro id required hpath member hmember other hother
    have hid := mem_parcelIds_of_mem_classesOf hmember
    exact (precedes_parcelOrder hid (hacyclic id) hpath).flatMap hother hmember
  · apply (parentsFirst_iff hsound.partitioned hsound.linked hlists).mpr
    intro child parent _ hcycle
    exact absurd hcycle (hacyclic _)

/-- When every parcel that has classes has been sorted since the last class
joined, and none requires itself, all classes are in order. -/
theorem orderedClasses_inOrder {sorted : List ParcelId}
    (hsorted : SortedTo sorted model)
    (hacyclic : ∀ id, ¬ OnCycle model.prereqParcels id)
    (hall : ∀ id, model.classesOf id ≠ [] → id ∈ sorted) : model.InOrder := by
  have hsound := hsorted.reachable.sound
  apply hsound.inOrder hacyclic
  intro id
  by_cases hempty : model.classesOf id = []
  · exact hsound.listsParentsFirst_of_empty hempty
  · exact (hsorted.staysSorted id (hall id hempty)).parents_first

/-! ## Two parcels, sorted one after the other -/

/-- `Drone` of `Bee` inherits from `Worker` of `Ant`, and `Scout` from
`Drone`. -/
def swarm : Model :=
  leftBy ((Call.addClass ⟨0⟩ { name := "Worker" }).run
    (leftBy ((Call.addClass ⟨1⟩ { name := "Drone", parent := some "Worker" }).run
      (leftBy ((Call.addClass ⟨1⟩ { name := "Scout", parent := some "Drone" }).run
        hive)))))

/-- `Bee` is sorted before `Ant`, and a class that is there already is declared
in vain. -/
def sortedSwarm : Model :=
  leftBy ((Call.addClass ⟨1⟩ { name := "Drone" }).run
    (leftBy ((Call.connectAndSort ⟨0⟩).run
      (leftBy ((Call.connectAndSort ⟨1⟩).run swarm)))))

theorem sortedSwarm_sortedTo : SortedTo [⟨0⟩, ⟨1⟩] sortedSwarm := by
  have hhive : SortedTo [] hive :=
    .next (.register bee) (.next (.register ant) .empty ant_wellFormed rfl)
      bee_wellFormed rfl
  have hswarm : SortedTo [] swarm := by
    refine .next _ (.next _ (.next _ hhive ?_ rfl) ?_ rfl) ?_ rfl
    all_goals exact mem_parcelIds.mpr (by decide)
  have hbee : SortedTo [⟨1⟩] (leftBy ((Call.connectAndSort ⟨1⟩).run swarm)) :=
    .next _ hswarm (mem_parcelIds.mpr (by decide)) (by decide)
  have hant : SortedTo [⟨0⟩, ⟨1⟩] (leftBy ((Call.connectAndSort ⟨0⟩).run
      (leftBy ((Call.connectAndSort ⟨1⟩).run swarm)))) :=
    .next _ hbee (mem_parcelIds.mpr (by decide)) (by decide)
  exact .next _ hant (mem_parcelIds.mpr (by decide)) (by decide)

theorem sortedSwarm_inOrder :
    SortedTo [⟨0⟩, ⟨1⟩] sortedSwarm ∧
      (∀ id, ¬ OnCycle sortedSwarm.prereqParcels id) ∧
      (∀ id, sortedSwarm.classesOf id ≠ [] → id ∈ [⟨0⟩, ⟨1⟩]) ∧
      sortedSwarm.InOrder ∧ sortedSwarm.orderedClasses = [⟨2⟩, ⟨1⟩, ⟨0⟩] := by
  have hdescends : ∀ id ∈ sortedSwarm.parcelIds,
      ∀ required ∈ sortedSwarm.prereqParcels id, required.index < id.index := by
    decide
  have hacyclic : ∀ id, ¬ OnCycle sortedSwarm.prereqParcels id := by
    apply not_onCycle_of_descends ParcelId.index
    intro id required hedge
    obtain ⟨prereq, hprereq, _⟩ := mem_prereqParcels.mp hedge
    exact hdescends id (mem_parcelIds_of_mem_prereqs hprereq) required hedge
  have hall : ∀ id, sortedSwarm.classesOf id ≠ [] → id ∈ [⟨0⟩, ⟨1⟩] := by
    intro id hclasses
    obtain ⟨member, hmember⟩ := List.exists_mem_of_ne_nil _ hclasses
    have hid := mem_parcelIds_of_mem_classesOf hmember
    have hids : sortedSwarm.parcelIds = [⟨0⟩, ⟨1⟩] := by decide
    rwa [hids] at hid
  exact ⟨sortedSwarm_sortedTo, hacyclic, hall,
    orderedClasses_inOrder sortedSwarm_sortedTo hacyclic hall, by decide⟩

end Parcels.Model
