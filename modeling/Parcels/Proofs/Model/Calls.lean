import Parcels.Model.HostFile
import Parcels.Model.Symbol
import Parcels.Proofs.Model.Connecting
import Parcels.Proofs.Model.InheritanceOrder
import Parcels.Proofs.Model.PrereqChecks
import Parcels.Proofs.Parcel

/-!
# Calls on a model

A model comes about by calls, which may change it even when they fail.  What a
call can do to a model is said once, and what holds of every model that arises
is derived from that.
-/

namespace Parcels.Model

/-- A call that may change a model. -/
inductive Call where
  | register (parcel : Parcel)
  | addClass (id : ParcelId) (header : ClassHeader)
  | checkPrereqs (id : ParcelId)
  | connectAndSort (id : ParcelId)
  | findShortSymbol (id : ParcelId) (symbol : String)
  | applyHostData (id : ParcelId) (path text : String)
  | takeWarnings
  | reap

namespace Call

/-- An addition to the model, which changes nothing when it fails. -/
def extend {Id : Type} (add : Model → Except Error (Id × Model)) :
    Action Model Unit := fun model =>
  match add model with
  | .ok (_, after) => .ok () after
  | .error error => .error error model

theorem extend_ends {Id : Type} {add : Model → Except Error (Id × Model)}
    {model : Model} {onResult : Unit → Model → Prop} {onError : Error → Model → Prop}
    (hok : ∀ newId after, add model = .ok (newId, after) → onResult () after)
    (herror : ∀ error, add model = .error error → onError error model) :
    Ends (extend add model) onResult onError := by
  unfold extend
  cases hrun : add model with
  | ok added => exact hok added.1 added.2 hrun
  | error error => exact herror error hrun

def run : Call → Action Model Unit
  | .register parcel => extend (·.register parcel)
  | .addClass id header => do
      let _ ← declareClass id header
      return
  | .checkPrereqs id => Model.checkPrereqs id
  | .connectAndSort id => Model.connectAndSort id
  | .findShortSymbol id symbol => modify fun model =>
      (model.findShortSymbol id symbol).2
  | .applyHostData id path text => Model.applyHostData id path text
  | .takeWarnings => modify fun model => { model with warnings := [] }
  | .reap => set ({} : Model)

/-- A declaration is an addition to the model. -/
theorem run_addClass (id : ParcelId) (header : ClassHeader) :
    (addClass id header).run = extend (·.addClass id header) := by
  funext model
  have hdeclare := declareClass_eq model id header
  change (declareClass id header >>= fun _ => pure ()) model = _
  unfold extend
  cases hadd : model.addClass id header with
  | ok added =>
      rw [hadd] at hdeclare
      rw [bind_of_ok _ hdeclare]
      simp only [hadd]
      rfl
  | error error =>
      rw [hadd] at hdeclare
      rw [bind_of_error _ hdeclare]
      simp only [hadd]

/-- Parcels are made by their constructors and ids given out by the model. -/
def Valid (model : Model) : Call → Prop
  | .register parcel => parcel.WellFormed
  | .addClass id _ | .checkPrereqs id | .connectAndSort id
  | .findShortSymbol id _ | .applyHostData id _ _ => id ∈ model.parcelIds
  | .takeWarnings | .reap => True

/-- The call is no check of prereqs that fails. -/
def Passes (model : Model) : Call → Prop
  | .checkPrereqs id => ∃ after, Model.checkPrereqs id model = .ok () after
  | _ => True

end Call

/-- The models that admissible calls lead to, one after another. -/
inductive Arises (Admissible : Model → Call → Prop) : Model → Prop
  | empty : Arises Admissible {}
  | call {model : Model} {call : Call} (harises : Arises Admissible model)
      (hadmissible : Admissible model call) :
      Arises Admissible (leftBy (call.run model))

/-- A model that valid calls lead to, failing ones included. -/
abbrev Reachable : Model → Prop := Arises Call.Valid

/-- A model that valid calls lead to, with no failing check of prereqs among
them. -/
abbrev Unfailed : Model → Prop :=
  Arises fun model call => call.Valid model ∧ call.Passes model

theorem Arises.mono {Admissible Admissible' : Model → Call → Prop} {model : Model}
    (hmore : ∀ model call, Admissible model call → Admissible' model call)
    (harises : Arises Admissible model) : Arises Admissible' model := by
  induction harises with
  | empty => exact .empty
  | call _ hadmissible ih => exact .call ih (hmore _ _ hadmissible)

theorem Arises.reachable {model : Model} (hunfailed : model.Unfailed) :
    model.Reachable :=
  hunfailed.mono fun _ _ => And.left

/-- A call that ends with a result. -/
theorem Arises.next {Admissible : Model → Call → Prop} {model after : Model}
    (call : Call) (harises : Arises Admissible model)
    (hadmissible : Admissible model call) (hrun : call.run model = .ok () after) :
    Arises Admissible after := by
  have hnext := harises.call hadmissible
  rwa [hrun] at hnext

/-! ## What a call can do -/

/-- What a call may leave of a model. -/
inductive Effect (model : Model) : Call → Model → Prop
  | registered {parcel : Parcel} {newId : ParcelId} {after : Model}
      (wellFormed : parcel.WellFormed)
      (registered : model.register parcel = .ok (newId, after)) :
      Effect model (.register parcel) after
  | declared {id : ParcelId} {header : ClassHeader} {newId : ClassId}
      {after : Model} (known : id ∈ model.parcelIds)
      (added : model.addClass id header = .ok (newId, after)) :
      Effect model (.addClass id header) after
  | checked {id : ParcelId} (known : id ∈ model.parcelIds) :
      Effect model (.checkPrereqs id) (leftBy (checkPrereqs id model))
  | linked {id : ParcelId} {after : Model} (links : MakesLinks id model after) :
      Effect model (.connectAndSort id) after
  | sorted {id : ParcelId} {linked : Model} (links : MakesLinks id model linked)
      (complete : (linked.inheritanceOrder id).length =
        (model.classesOf id).length) :
      Effect model (.connectAndSort id)
        (linked.setClasses id (linked.inheritanceOrder id))
  /-- Neither the parcels nor the classes nor the links change. -/
  | noted {call : Call} (host : HostData) (warnings : List Warning) :
      Effect model call { model with host := host, warnings := warnings }
  | reaped : Effect model .reap {}

theorem Effect.same (model : Model) (call : Call) : Effect model call model :=
  .noted model.host model.warnings

theorem findShortSymbol_eq (model : Model) (id : ParcelId) (symbol : String) :
    ∃ warnings, (model.findShortSymbol id symbol).2 =
      { model with warnings := warnings } := by
  unfold findShortSymbol
  split
  · exact ⟨model.warnings, rfl⟩
  · split
    · exact ⟨model.warnings, rfl⟩
    · exact ⟨model.warnings, rfl⟩
    · exact ⟨_, rfl⟩

theorem checkPrereqs_leaves (model : Model) (id : ParcelId) :
    ∃ checks, leftBy (checkPrereqs id model) =
      { model with checks := checks } := by
  unfold checkPrereqs
  split <;> exact ⟨_, rfl⟩

theorem applyHostData_leaves (model : Model) (id : ParcelId) (path text : String) :
    ∃ host, leftBy (applyHostData id path text model) =
      { model with host := host } := by
  unfold applyHostData
  split
  · exact ⟨model.host, rfl⟩
  · split <;> exact ⟨_, rfl⟩
  · exact ⟨model.host, rfl⟩

/-- Every valid call has one of the effects, whether it fails or not. -/
theorem Call.effect {model : Model} {call : Call} (hvalid : call.Valid model) :
    Effect model call (leftBy (call.run model)) := by
  cases call with
  | register parcel =>
      change Effect model _ (leftBy (extend (·.register parcel) model))
      unfold extend
      split
      · next hregister => exact .registered hvalid hregister
      · exact .same model _
  | addClass id header =>
      rw [run_addClass, extend]
      split
      · next hadd => exact .declared hvalid hadd
      · exact .same model _
  | checkPrereqs id => exact .checked hvalid
  | connectAndSort id =>
      have hends : Ends (Model.connectAndSort id model)
          (fun _ => Effect model (.connectAndSort id))
          (fun _ => Effect model (.connectAndSort id)) := by
        refine (connectAndSort_ends model id).mono ?_ fun _ _ => .linked
        rintro _ _ ⟨linked, hlinks, hcomplete, rfl⟩
        exact .sorted hlinks hcomplete
      exact Ends.leftBy_iff.mp hends
  | findShortSymbol id symbol =>
      obtain ⟨warnings, hafter⟩ := findShortSymbol_eq model id symbol
      change Effect model _ (model.findShortSymbol id symbol).2
      rw [hafter]
      exact .noted model.host warnings
  | applyHostData id path text =>
      obtain ⟨host, hafter⟩ := applyHostData_leaves model id path text
      change Effect model _ (leftBy (Model.applyHostData id path text model))
      rw [hafter]
      exact .noted host model.warnings
  | takeWarnings => exact .noted model.host []
  | reap => exact .reaped

/-! ## What every call keeps up -/

/-- What holds of a model whatever calls led to it. -/
structure Sound (model : Model) : Prop where
  partitioned : model.Partitioned
  linked : model.SoundlyLinked
  settled : model.Settled model.checks

variable {model after : Model}

theorem Sound.empty : Sound {} where
  partitioned := .empty
  linked := .empty
  settled :=
    { required_known := List.nil_subset _
      underway_known := List.nil_subset _
      underway_nodup := List.nodup_nil
      apart := List.forall_mem_nil _
      satisfied := List.forall_mem_nil _
      acyclic := List.forall_mem_nil _ }

theorem Sound.registered {parcel : Parcel} {newId : ParcelId}
    (hsound : model.Sound) (hregister : model.register parcel = .ok (newId, after)) :
    after.Sound := by
  have hpartitioned := hsound.partitioned.register hregister
  obtain ⟨_, hafter, _, _⟩ := register_eq_ok hregister
  have hjoined : after.parcels = model.parcels.push { parcel with } := by
    rw [hafter]
  refine ⟨hpartitioned, ?_, ?_⟩
  · refine hsound.linked.grow (by rw [hafter]) ?_
      (prereqParcels_of_joined hjoined)
    intro id hid
    rw [hafter]
    exact ⟨hid, rfl⟩
  · have hchecks : after.checks = model.checks := by rw [hafter]
    rw [hchecks]
    exact hsound.settled.joined hjoined

theorem Sound.declared {id : ParcelId} {header : ClassHeader} {newId : ClassId}
    (hsound : model.Sound) (hid : id ∈ model.parcelIds)
    (hadd : model.addClass id header = .ok (newId, after)) : after.Sound := by
  obtain ⟨_, _, hdeclares⟩ := addClass_eq_ok hid hadd
  have hspecs := hdeclares.specs_eq
  refine ⟨hsound.partitioned.declares hid hdeclares, ?_, ?_⟩
  · refine hsound.linked.grow hdeclares.links_eq ?_ ?_
    · intro member hmember
      exact ⟨hdeclares.mem_classIds_iff.mpr (.inl hmember),
        hdeclares.classAt_eq hmember⟩
    · rw [prereqParcels_congr hspecs]
      exact fun _ => List.Subset.refl _
  · rw [hdeclares.checks_eq]
    exact hsound.settled.congr hspecs

theorem Sound.makesLinks {id : ParcelId} (hsound : model.Sound)
    (hlinks : MakesLinks id model after) : after.Sound := by
  have hlinked := hsound.linked.makesLinks hsound.partitioned hlinks
  rw [hlinks.frame] at hlinked ⊢
  exact ⟨hsound.partitioned.congr rfl rfl, hlinked, hsound.settled.congr rfl⟩

theorem Sound.setClasses {id : ParcelId} {classes : List ClassId}
    (hsound : model.Sound) (hperm : classes.Perm (model.classesOf id)) :
    (model.setClasses id classes).Sound := by
  have hspecs := specs_setClasses model id classes
  refine ⟨hsound.partitioned.setClasses hperm, ?_, hsound.settled.congr hspecs⟩
  refine hsound.linked.grow rfl (fun member hmember => ⟨hmember, rfl⟩) ?_
  rw [prereqParcels_congr hspecs]
  exact fun _ => List.Subset.refl _

theorem Sound.connected {id : ParcelId} (hsound : model.Sound)
    (hlinkable : ∀ child ∈ model.classesOf id, model.Linkable id child) :
    (model.connected id).Sound :=
  hsound.makesLinks (makesLinks_connected (hsound.partitioned.nodup id) hlinkable)

/-- A sort puts the classes of the parcel in another order. -/
theorem Sound.perm_of_complete {id : ParcelId} {linked : Model}
    (hsound : model.Sound) (hlinks : MakesLinks id model linked)
    (hcomplete : (linked.inheritanceOrder id).length =
      (model.classesOf id).length) :
    (linked.inheritanceOrder id).Perm (model.classesOf id) := by
  have hlinked := hsound.makesLinks hlinks
  have hmembers : linked.classesOf id = model.classesOf id := by
    rw [hlinks.frame]
    rfl
  rw [← hmembers] at hcomplete ⊢
  exact inheritanceOrder_perm hlinked.partitioned hlinked.linked hcomplete

/-- Soundness is about parcels, classes, links and checks, and of the checks it
only asks that they are settled. -/
theorem Sound.withChecks {checks : Checks} (hsound : model.Sound)
    (hsettled : model.Settled checks) (host : HostData)
    (warnings : List Warning) :
    Sound { model with checks := checks, host := host, warnings := warnings } where
  partitioned := hsound.partitioned.congr rfl rfl
  linked := hsound.linked.grow rfl (fun _ hmember => ⟨hmember, rfl⟩)
    fun _ => List.Subset.refl _
  settled := hsettled.congr rfl

/-- No effect of a call makes a sound model unsound. -/
theorem Sound.effect {call : Call} (hsound : model.Sound)
    (heffect : Effect model call after) : after.Sound := by
  cases heffect with
  | registered _ hregister => exact hsound.registered hregister
  | declared hid hadd => exact hsound.declared hid hadd
  | @checked id hid =>
      have hends : Ends (checkPrereqs id model) (fun _ => Sound) (fun _ => Sound) := by
        refine (checkPrereqs_ends hsound.settled hid).mono ?_ ?_
        · rintro _ _ ⟨checks, rfl, hpassed⟩
          exact hsound.withChecks hpassed.settled model.host model.warnings
        · rintro _ _ ⟨checks, rfl, hstopped⟩
          exact hsound.withChecks hstopped.settled model.host model.warnings
      exact Ends.leftBy_iff.mp hends
  | linked hlinks => exact hsound.makesLinks hlinks
  | @sorted id linked hlinks hcomplete =>
      apply (hsound.makesLinks hlinks).setClasses
      have hmembers : linked.classesOf id = model.classesOf id := by
        rw [hlinks.frame]
        rfl
      rw [hmembers]
      exact hsound.perm_of_complete hlinks hcomplete
  | noted host warnings => exact hsound.withChecks hsound.settled host warnings
  | reaped => exact .empty

/-- Valid calls lead to sound models only. -/
theorem Arises.sound (hreachable : model.Reachable) : model.Sound := by
  induction hreachable with
  | empty => exact .empty
  | call _ hvalid ih => exact ih.effect (Call.effect hvalid)

theorem Effect.nodup_names {call : Call} (heffect : Effect model call after)
    (hnames : (model.specs.toList.map Parcel.name).Nodup) :
    (after.specs.toList.map Parcel.name).Nodup := by
  cases heffect with
  | @registered parcel _ _ _ hregister =>
      obtain ⟨-, rfl, hnew, -⟩ := register_eq_ok hregister
      have hname : parcel.name ∉ model.specs.toList.map Parcel.name := by
        simpa using parcelNamed?_eq_none_iff.mp hnew
      simpa [specs] using hnames.concat hname
  | declared hid hadd =>
      obtain ⟨_, _, hdeclares⟩ := addClass_eq_ok hid hadd
      rwa [hdeclares.specs_eq]
  | checked =>
      obtain ⟨checks, hafter⟩ := checkPrereqs_leaves model _
      rwa [hafter]
  | linked hlinks =>
      rw [hlinks.frame]
      exact hnames
  | sorted hlinks _ =>
      rw [specs_setClasses, hlinks.frame]
      exact hnames
  | noted => exact hnames
  | reaped => simp [specs]

/-- Valid calls never lead to two parcels of one name. -/
theorem Arises.distinctNames (hreachable : model.Reachable) : model.DistinctNames := by
  suffices hnames : (model.specs.toList.map Parcel.name).Nodup from
    distinctNames_of_nodup hnames
  induction hreachable with
  | empty => simp [specs]
  | call _ hvalid ih => exact (Call.effect hvalid).nodup_names ih

/-- Only a check that failed leaves parcels under way. -/
theorem Arises.underway_eq_nil (hunfailed : model.Unfailed) :
    model.checks.underway = [] := by
  induction hunfailed with
  | empty => rfl
  | @call model call harises hadmissible ih =>
      have hsound := harises.reachable.sound
      have heffect := Call.effect hadmissible.1
      revert heffect
      generalize hleft : leftBy (call.run model) = after
      intro heffect
      cases heffect with
      | registered _ hregister =>
          rw [(register_eq_ok hregister).2.1]
          exact ih
      | declared hid hadd =>
          obtain ⟨_, _, hdeclares⟩ := addClass_eq_ok hid hadd
          rw [hdeclares.checks_eq]
          exact ih
      | @checked id hid =>
          obtain ⟨after, hrun⟩ := hadmissible.2
          have hends := checkPrereqs_ends hsound.settled hid
          rw [hrun] at hends ⊢
          obtain ⟨checks, rfl, hpassed⟩ := hends
          exact hpassed.underway_eq.trans ih
      | linked hlinks =>
          rw [hlinks.frame]
          exact ih
      | sorted hlinks _ =>
          rw [hlinks.frame]
          exact ih
      | noted => exact ih
      | reaped => rfl

end Parcels.Model
