import Parcels.Model.Registry
import Parcels.Proofs.Model.PrereqClosure

/-!
# Registries in step with models

The registry of a model is written once for each parcel that joins and not at
all for one that is refused.  So each of its tables finds just what a search of
the parcels finds, whatever calls have led to the model, and a model without a
registry behaves in the same way.
-/

namespace Parcels

open Model

/-! ## One table -/

namespace Model

variable {model after : Model} {key : Parcel → String} {table : List (String × ParcelId)}

/-- The table leads from the key of every parcel to this parcel, and nowhere
else. -/
def Indexes (model : Model) (key : Parcel → String) (table : List (String × ParcelId)) : Prop :=
  ∀ text id, table.lookup text = some id ↔
    id ∈ model.parcelIds ∧ key (model.parcelAt id).toParcel = text

theorem Indexes.congr (hindexes : model.Indexes key table) (hspecs : after.specs = model.specs) :
    after.Indexes key table := by
  intro text id
  rw [hindexes text id, parcelIds_congr hspecs, toParcel_congr hspecs]

theorem Indexes.isSome_iff (hindexes : model.Indexes key table) {text : String} :
    (table.lookup text).isSome = true ↔
      ∃ id ∈ model.parcelIds, key (model.parcelAt id).toParcel = text := by
  rw [Option.isSome_iff_exists]
  simp only [hindexes text]

/-- A table of this kind comes to a search of the parcels. -/
theorem Indexes.lookup_eq (hindexes : model.Indexes key table) (text : String) :
    table.lookup text =
      model.parcelIds.find? fun id => key (model.parcelAt id).toParcel == text := by
  cases hfound : model.parcelIds.find? fun id => key (model.parcelAt id).toParcel == text with
  | none =>
      rw [Option.eq_none_iff_forall_ne_some]
      intro id hlookup
      obtain ⟨hid, hkey⟩ := (hindexes text id).mp hlookup
      exact List.find?_eq_none.mp hfound id hid (by simpa using hkey)
  | some id =>
      have hkey := List.find?_some hfound
      exact (hindexes text id).mpr ⟨List.mem_of_find?_eq_some hfound, by simpa using hkey⟩

/-- No two parcels have the same key, for the table would have to lead to
both. -/
theorem Indexes.injective (hindexes : model.Indexes key table) {left right : ParcelId}
    (hleft : left ∈ model.parcelIds) (hright : right ∈ model.parcelIds)
    (hkey : key (model.parcelAt left).toParcel = key (model.parcelAt right).toParcel) :
    left = right := by
  have hfirst := (hindexes _ left).mpr ⟨hleft, hkey⟩
  have hsecond := (hindexes _ right).mpr ⟨hright, rfl⟩
  rw [hfirst] at hsecond
  exact Option.some.inj hsecond

theorem Indexes.nodup (hindexes : model.Indexes key table) :
    (model.parcelIds.map fun id => key (model.parcelAt id).toParcel).Nodup :=
  model.nodup_parcelIds.map_on fun _ hleft _ hright hkey =>
    hindexes.injective hleft hright hkey

/-- A parcel with a new key joins, and its id is entered under the key. -/
theorem Indexes.joined {parcel : RegisteredParcel} (hindexes : model.Indexes key table)
    (hnew : table.lookup (key parcel.toParcel) = none)
    (hjoined : after.parcels = model.parcels.push parcel) :
    after.Indexes key ((key parcel.toParcel, ⟨model.parcels.size⟩) :: table) := by
  have hlast : after.parcelAt ⟨model.parcels.size⟩ = parcel := by
    simp [parcelAt, hjoined, Array.getD_eq_getD_getElem?]
  have hids : ∀ id, id ∈ after.parcelIds ↔
      id ∈ model.parcelIds ∨ id = ⟨model.parcels.size⟩ := by
    intro id
    obtain ⟨index⟩ := id
    simp only [mem_parcelIds, hjoined, Array.size_push, ParcelId.mk.injEq]
    omega
  intro text id
  rw [List.lookup_cons, hids]
  by_cases htext : text = key parcel.toParcel
  · subst htext
    have hothers : ∀ other ∈ model.parcelIds,
        key (model.parcelAt other).toParcel ≠ key parcel.toParcel := by
      intro other hother hkey
      rw [(hindexes _ other).mpr ⟨hother, hkey⟩] at hnew
      cases hnew
    simp only [beq_self_eq_true, Option.some.injEq]
    constructor
    · rintro rfl
      exact ⟨.inr rfl, by rw [hlast]⟩
    · intro hid
      rcases hid.1 with hold | hnewId
      · rw [parcelAt_of_joined hjoined hold] at hid
        exact absurd hid.2 (hothers id hold)
      · exact hnewId.symm
  · rw [beq_false_of_ne htext, hindexes text id]
    constructor
    · intro hid
      rw [parcelAt_of_joined hjoined hid.1]
      exact ⟨.inl hid.1, hid.2⟩
    · intro hid
      rcases hid.1 with hold | rfl
      · rw [parcelAt_of_joined hjoined hold] at hid
        exact ⟨hold, hid.2⟩
      · rw [hlast] at hid
        exact absurd hid.2.symm htext

end Model

namespace IndexedModel

variable {indexed after : IndexedModel} {parcel : Parcel}

/-! ## Calls -/

/-- Registrations fill the registry and reaping empties it.  All other calls
leave it alone. -/
def run : Call → Action IndexedModel Unit
  | .register parcel => do
      let _ ← register parcel
  | .reap => set ({} : IndexedModel)
  | call => onModel call.run

theorem run_eq_onModel {call : Call} (hregister : ∀ parcel, call ≠ .register parcel)
    (hreap : call ≠ .reap) : run call = onModel call.run := by
  cases call with
  | register parcel => exact absurd rfl (hregister parcel)
  | reap => exact absurd rfl hreap
  | _ => rfl

/-- An indexed model that valid calls lead to, failing ones included. -/
inductive Reachable : IndexedModel → Prop
  | empty : Reachable {}
  | call {indexed : IndexedModel} {call : Call} (reachable : Reachable indexed)
      (valid : call.Valid indexed.model) : Reachable (leftBy (run call indexed))

/-- The outcome for the model alone. -/
def withoutRegistry {Result : Type} :
    EStateM.Result Error IndexedModel Result → EStateM.Result Error Model Result
  | .ok result indexed => .ok result indexed.model
  | .error error indexed => .error error indexed.model

/-! ## In step -/

/-- The registry holds the ids of the parcels in order, under their names and
under their nicknames. -/
structure InStep (indexed : IndexedModel) : Prop where
  order_eq : indexed.registry.order = indexed.model.parcelIds
  byName : indexed.model.Indexes Parcel.name indexed.registry.byName
  byNickname : indexed.model.Indexes Parcel.nickname indexed.registry.byNickname

theorem InStep.empty : InStep {} where
  order_eq := rfl
  byName := by simp [Indexes]
  byNickname := by simp [Indexes]

theorem InStep.fetch?_eq (hstep : indexed.InStep) :
    indexed.registry.fetch? = indexed.model.parcelNamed? :=
  funext hstep.byName.lookup_eq

theorem InStep.fetchNickname?_eq (hstep : indexed.InStep) :
    indexed.registry.fetchNickname? = indexed.model.parcelNicknamed? :=
  funext hstep.byNickname.lookup_eq

theorem InStep.check_eq (hstep : indexed.InStep) :
    indexed.registry.check = indexed.model.checkNames := by
  funext name nickname
  rw [Registry.check, hstep.fetch?_eq, hstep.fetchNickname?_eq, checkNames]

/-- The registry and the model after a parcel has joined. -/
def joined (indexed : IndexedModel) (parcel : Parcel) : IndexedModel where
  model := { indexed.model with parcels := indexed.model.parcels.push { parcel with } }
  registry :=
    { order := indexed.registry.order ++ [⟨indexed.model.parcels.size⟩]
      byName := (parcel.name, ⟨indexed.model.parcels.size⟩) :: indexed.registry.byName
      byNickname :=
        (parcel.nickname, ⟨indexed.model.parcels.size⟩) :: indexed.registry.byNickname }

theorem enter_eq (registry : Registry) (id : ParcelId) (name nickname : String) :
    Registry.enter id name nickname registry =
      match registry.check name nickname with
      | .error error => .error error registry
      | .ok () => .ok ()
          { order := registry.order ++ [id]
            byName := (name, id) :: registry.byName
            byNickname := (nickname, id) :: registry.byNickname } := by
  unfold Registry.enter
  rw [bind_get]
  cases registry.check name nickname with
  | error error => rfl
  | ok => rfl

/-- The check alone decides what becomes of a registration. -/
theorem register_eq (indexed : IndexedModel) (parcel : Parcel) :
    register parcel indexed =
      match indexed.registry.check parcel.name parcel.nickname with
      | .error error => .error error indexed
      | .ok () => .ok ⟨indexed.model.parcels.size⟩ (indexed.joined parcel) := by
  unfold register
  rw [bind_get]
  have henter := enter_eq indexed.registry ⟨indexed.model.parcels.size⟩ parcel.name
    parcel.nickname
  cases hcheck : indexed.registry.check parcel.name parcel.nickname with
  | error error =>
      simp only [hcheck] at henter
      simp only [bind, EStateM.bind, onRegistry, henter]
  | ok =>
      simp only [hcheck] at henter
      simp only [bind, EStateM.bind, onRegistry, henter]
      rfl

theorem InStep.joined (hstep : indexed.InStep)
    (hname : indexed.model.parcelNamed? parcel.name = none)
    (hnickname : indexed.model.parcelNicknamed? parcel.nickname = none) :
    (indexed.joined parcel).InStep where
  order_eq := by
    change indexed.registry.order ++ _ = _
    rw [hstep.order_eq]
    simp [parcelIds, IndexedModel.joined, List.range_succ]
  byName := by
    have hjoined : (indexed.joined parcel).model.parcels =
        indexed.model.parcels.push { parcel with } := rfl
    rw [← hstep.fetch?_eq] at hname
    apply hstep.byName.joined _ hjoined
    exact hname
  byNickname := by
    have hjoined : (indexed.joined parcel).model.parcels =
        indexed.model.parcels.push { parcel with } := rfl
    rw [← hstep.fetchNickname?_eq] at hnickname
    apply hstep.byNickname.joined _ hjoined
    exact hnickname

/-- The descriptions of the parcels change by registrations and reaping only. -/
theorem specs_eq_of_effect {model after : Model} {call : Call} (heffect : Effect model call after)
    (hregister : ∀ parcel, call ≠ .register parcel) (hreap : call ≠ .reap) :
    after.specs = model.specs := by
  cases heffect with
  | registered => exact absurd rfl (hregister _)
  | declared hid hadd => exact (addClass_eq_ok hid hadd).2.2.specs_eq
  | @checked id _ =>
      obtain ⟨checks, hafter⟩ := checkPrereqs_leaves model id
      rw [hafter]
      rfl
  | linked hlinks =>
      rw [hlinks.frame]
      rfl
  | sorted hlinks _ =>
      rw [specs_setClasses, hlinks.frame]
      rfl
  | noted => rfl
  | reaped => exact absurd rfl hreap

theorem InStep.onModel (hstep : indexed.InStep) {call : Call} (hvalid : call.Valid indexed.model)
    (hregister : ∀ parcel, call ≠ .register parcel) (hreap : call ≠ .reap) :
    (leftBy (onModel call.run indexed)).InStep := by
  have hspecs := specs_eq_of_effect (Call.effect hvalid) hregister hreap
  have hafter : leftBy (IndexedModel.onModel call.run indexed) =
      { indexed with model := leftBy (call.run indexed.model) } := by
    unfold IndexedModel.onModel
    cases call.run indexed.model with
    | ok => rfl
    | error => rfl
  rw [hafter]
  exact {
    order_eq := hstep.order_eq.trans (parcelIds_congr hspecs).symm
    byName := hstep.byName.congr hspecs
    byNickname := hstep.byNickname.congr hspecs }

/-- What a registration does whose registry is in step: it passes or names the
first of its two faults. -/
theorem InStep.register_ends (hstep : indexed.InStep) (parcel : Parcel) :
    Ends (register parcel indexed)
      (fun id after => indexed.model.parcelNamed? parcel.name = none ∧
        indexed.model.parcelNicknamed? parcel.nickname = none ∧
        id = ⟨indexed.model.parcels.size⟩ ∧ after = indexed.joined parcel)
      (fun error after => after = indexed ∧
        ((indexed.model.parcelNamed? parcel.name).isSome ∧
            error = .duplicateParcelName parcel.name ∨
          indexed.model.parcelNamed? parcel.name = none ∧
            (indexed.model.parcelNicknamed? parcel.nickname).isSome ∧
            error = .duplicateParcelNickname parcel.nickname)) := by
  rw [register_eq, hstep.check_eq, checkNames]
  cases hname : indexed.model.parcelNamed? parcel.name with
  | some id => exact ⟨rfl, .inl ⟨rfl, rfl⟩⟩
  | none =>
      cases hnickname : indexed.model.parcelNicknamed? parcel.nickname with
      | some id => exact ⟨rfl, .inr ⟨rfl, rfl, rfl⟩⟩
      | none => exact ⟨rfl, rfl, rfl, rfl⟩

theorem InStep.run (hstep : indexed.InStep) {call : Call} (hvalid : call.Valid indexed.model) :
    (leftBy (IndexedModel.run call indexed)).InStep := by
  cases call with
  | register parcel =>
      have hends : Ends (IndexedModel.run (.register parcel) indexed) (fun _ => InStep)
          (fun _ => InStep) := by
        apply Ends.bind
        apply (hstep.register_ends parcel).mono
        · intro id after hjoined
          obtain ⟨hname, hnickname, _, rfl⟩ := hjoined
          exact hstep.joined hname hnickname
        · intro error after hrefused
          exact hrefused.1 ▸ hstep
      exact Ends.leftBy_iff.mp hends
  | reap => exact .empty
  | _ =>
      rw [run_eq_onModel (by simp) (by simp)]
      exact hstep.onModel hvalid (by simp) (by simp)

theorem Reachable.inStep (hreachable : indexed.Reachable) : indexed.InStep := by
  induction hreachable with
  | empty => exact .empty
  | call _ hvalid ih => exact ih.run hvalid

/-! ## Without the registry -/

theorem withoutRegistry_onModel {Result : Type} (action : Action Model Result) :
    withoutRegistry (onModel action indexed) = action indexed.model := by
  unfold onModel
  cases action indexed.model with
  | ok => rfl
  | error => rfl

/-- A registry in step makes no difference to how a call ends. -/
theorem InStep.withoutRegistry_run (hstep : indexed.InStep) (call : Call) :
    withoutRegistry (IndexedModel.run call indexed) = call.run indexed.model := by
  cases call with
  | register parcel =>
      have hregister := register_eq indexed parcel
      change withoutRegistry (EStateM.bind (register parcel) (fun _ => pure ()) indexed) =
        Call.extend (·.register parcel) indexed.model
      unfold EStateM.bind Call.extend Model.register
      rw [hregister, hstep.check_eq]
      cases hcheck : indexed.model.checkNames parcel.name parcel.nickname with
      | error error =>
          simp only [hcheck]
          rfl
      | ok =>
          simp only [hcheck]
          rfl
  | reap => rfl
  | _ =>
      rw [run_eq_onModel (by simp) (by simp)]
      exact withoutRegistry_onModel _

/-! ## What a registry answers -/

/-- How an indexed model looks parcels up and takes new ones. -/
structure KeepsRegistry (indexed : IndexedModel) : Prop where
  order_eq : indexed.registry.order =
    (List.range indexed.model.parcels.size).map ParcelId.mk
  names_nodup :
    (indexed.model.parcelIds.map fun id => (indexed.model.parcelAt id).name).Nodup
  nicknames_nodup :
    (indexed.model.parcelIds.map fun id => (indexed.model.parcelAt id).nickname).Nodup
  fetch?_iff : ∀ name id, indexed.registry.fetch? name = some id ↔
    id ∈ indexed.model.parcelIds ∧ (indexed.model.parcelAt id).name = name
  fetchNickname?_iff : ∀ nickname id, indexed.registry.fetchNickname? nickname = some id ↔
    id ∈ indexed.model.parcelIds ∧ (indexed.model.parcelAt id).nickname = nickname
  fails_iff : ∀ parcel, (∃ error after, register parcel indexed = .error error after) ↔
    ∃ id ∈ indexed.model.parcelIds, (indexed.model.parcelAt id).name = parcel.name ∨
      (indexed.model.parcelAt id).nickname = parcel.nickname
  /-- A refusal changes nothing and names the nickname only if the name is free. -/
  refuses : ∀ parcel error after, register parcel indexed = .error error after →
    after = indexed ∧
      ((∃ id ∈ indexed.model.parcelIds, (indexed.model.parcelAt id).name = parcel.name) ∧
          error = .duplicateParcelName parcel.name ∨
        (¬ ∃ id ∈ indexed.model.parcelIds,
            (indexed.model.parcelAt id).name = parcel.name) ∧
          error = .duplicateParcelNickname parcel.nickname)
  joins : ∀ parcel id after, register parcel indexed = .ok id after →
    id = ⟨indexed.model.parcels.size⟩ ∧ after = indexed.joined parcel
  hasPrereq_iff : ∀ id, ∀ other ∈ indexed.model.parcelIds,
    indexed.model.hasPrereq id other = true ↔
      id = other ∨ other ∈ indexed.model.prereqParcels id
  /-- The model by itself finds the same parcels and answers calls in the same
  way. -/
  fetch?_eq : indexed.registry.fetch? = indexed.model.parcelNamed?
  fetchNickname?_eq : indexed.registry.fetchNickname? = indexed.model.parcelNicknamed?
  alike : ∀ call, withoutRegistry (run call indexed) = call.run indexed.model

theorem InStep.isSome_parcelNamed?_iff (hstep : indexed.InStep) {name : String} :
    (indexed.model.parcelNamed? name).isSome = true ↔
      ∃ id ∈ indexed.model.parcelIds, (indexed.model.parcelAt id).name = name := by
  rw [← hstep.fetch?_eq]
  exact hstep.byName.isSome_iff

theorem InStep.isSome_parcelNicknamed?_iff (hstep : indexed.InStep) {nickname : String} :
    (indexed.model.parcelNicknamed? nickname).isSome = true ↔
      ∃ id ∈ indexed.model.parcelIds, (indexed.model.parcelAt id).nickname = nickname := by
  rw [← hstep.fetchNickname?_eq]
  exact hstep.byNickname.isSome_iff

theorem InStep.register_fails_iff (hstep : indexed.InStep) (parcel : Parcel) :
    (∃ error after, register parcel indexed = .error error after) ↔
      ∃ id ∈ indexed.model.parcelIds, (indexed.model.parcelAt id).name = parcel.name ∨
        (indexed.model.parcelAt id).nickname = parcel.nickname := by
  have htaken : (indexed.model.parcelNamed? parcel.name).isSome = true ∨
      (indexed.model.parcelNicknamed? parcel.nickname).isSome = true ↔
      ∃ id ∈ indexed.model.parcelIds, (indexed.model.parcelAt id).name = parcel.name ∨
        (indexed.model.parcelAt id).nickname = parcel.nickname := by
    rw [hstep.isSome_parcelNamed?_iff, hstep.isSome_parcelNicknamed?_iff]
    simp only [and_or_left, exists_or]
  rw [← htaken]
  have hends := hstep.register_ends parcel
  cases hrun : register parcel indexed with
  | ok id after =>
      obtain ⟨hname, hnickname, _⟩ := hends.of_eq_ok hrun
      simp [hname, hnickname]
  | error error after =>
      rw [hrun] at hends
      obtain ⟨_, ⟨hname, _⟩ | ⟨_, hnickname, _⟩⟩ := hends
      · exact iff_of_true ⟨error, after, rfl⟩ (.inl hname)
      · exact iff_of_true ⟨error, after, rfl⟩ (.inr hnickname)

theorem InStep.hasPrereq_iff (hstep : indexed.InStep) {id other : ParcelId}
    (hother : other ∈ indexed.model.parcelIds) :
    indexed.model.hasPrereq id other = true ↔
      id = other ∨ other ∈ indexed.model.prereqParcels id := by
  have hnamed : ∀ name, indexed.model.parcelNamed? name = some other ↔
      name = (indexed.model.parcelAt other).name := by
    intro name
    rw [← hstep.fetch?_eq]
    exact (hstep.byName name other).trans ((and_iff_right hother).trans eq_comm)
  simp only [hasPrereq, Bool.or_eq_true, beq_iff_eq, List.any_eq_true, mem_prereqParcels,
    hnamed]

theorem InStep.keepsRegistry (hstep : indexed.InStep) : indexed.KeepsRegistry where
  order_eq := hstep.order_eq
  names_nodup := hstep.byName.nodup
  nicknames_nodup := hstep.byNickname.nodup
  fetch?_iff := hstep.byName
  fetchNickname?_iff := hstep.byNickname
  fails_iff := hstep.register_fails_iff
  refuses := by
    intro parcel error after hrun
    have hends := hstep.register_ends parcel
    rw [hrun] at hends
    obtain ⟨hafter, ⟨hname, herror⟩ | ⟨hname, _, herror⟩⟩ := hends
    · exact ⟨hafter, .inl ⟨hstep.isSome_parcelNamed?_iff.mp hname, herror⟩⟩
    · refine ⟨hafter, .inr ⟨?_, herror⟩⟩
      rw [← hstep.isSome_parcelNamed?_iff, hname]
      simp
  joins := by
    intro parcel id after hrun
    exact ((hstep.register_ends parcel).of_eq_ok hrun).2.2
  hasPrereq_iff := fun _ _ hother => hstep.hasPrereq_iff hother
  fetch?_eq := hstep.fetch?_eq
  fetchNickname?_eq := hstep.fetchNickname?_eq
  alike := hstep.withoutRegistry_run

/-- Whatever calls have led to an indexed model, failing ones included, its
registry is in step with its parcels. -/
theorem registry_kept_in_step (hreachable : indexed.Reachable) : indexed.KeepsRegistry :=
  hreachable.inStep.keepsRegistry

/-- The registry can be kept along any calls that lead to a model. -/
theorem exists_indexed {model : Model} (hreachable : model.Reachable) :
    ∃ registry, Reachable ⟨model, registry⟩ := by
  induction hreachable with
  | empty => exact ⟨{}, .empty⟩
  | @call model call _ hvalid ih =>
      obtain ⟨registry, hindexed⟩ := ih
      have halike := hindexed.inStep.withoutRegistry_run call
      have hafter := hindexed.call hvalid
      revert halike hafter
      cases run call ⟨model, registry⟩ with
      | ok _ after =>
          intro halike hafter
          exact ⟨after.registry, halike ▸ hafter⟩
      | error _ after =>
          intro halike hafter
          exact ⟨after.registry, halike ▸ hafter⟩

/-! ## A parcel that is refused -/

/-- `Ant` joins, is refused a second time, and `Bee`, which requires it, joins. -/
def indexedHive : IndexedModel :=
  leftBy (run (.register bee) (leftBy (run (.register ant) (leftBy (run (.register ant) {})))))

/-- A parcel whose name and nickname are both taken. -/
def antBee : Parcel :=
  { ant with nickname := "Bee" }

theorem indexedHive_kept_in_step :
    indexedHive.Reachable ∧ indexedHive.KeepsRegistry ∧
      indexedHive.registry.order = [⟨0⟩, ⟨1⟩] ∧
      indexedHive.registry.fetch? "Bee" = some ⟨1⟩ ∧
      indexedHive.model.hasPrereq ⟨1⟩ ⟨0⟩ = true ∧
      Ends (register antBee indexedHive) (fun _ _ => False)
        (fun error _ => error = .duplicateParcelName "Ant") := by
  have hreachable : indexedHive.Reachable :=
    .call (.call (.call .empty ant_wellFormed) ant_wellFormed) bee_wellFormed
  exact ⟨hreachable, registry_kept_in_step hreachable, by decide, by decide, by decide, by decide⟩

end IndexedModel

end Parcels
