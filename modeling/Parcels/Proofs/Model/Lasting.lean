import Parcels.Proofs.Model.Calls

/-!
# What lasts

No call but emptying the model takes anything back.  Parcels, classes and links
stay in the places in which they joined, and what has passed a check stays
required.
-/

namespace Parcels.Model

variable {model after : Model}

/-- A valid call other than emptying the model, whether it fails or not. -/
def Continues (model after : Model) : Prop :=
  ∃ call : Call, call.Valid model ∧ call ≠ .reap ∧ after = leftBy (call.run model)

/-- What the earlier model has, the later one has in the same place. -/
structure Lasts (model after : Model) : Prop where
  specs : model.specs.toList <+: after.specs.toList
  classes : model.classes.toList <+: after.classes.toList
  links : model.links <+: after.links
  required : model.checks.required ⊆ after.checks.required

theorem getElem?_of_prefix {Element : Type} {shorter longer : List Element} {index : Nat}
    {element : Element} (hlonger : shorter <+: longer)
    (hat : shorter[index]? = some element) : longer[index]? = some element := by
  obtain ⟨hindex, rfl⟩ := List.getElem?_eq_some_iff.mp hat
  exact List.prefix_iff_getElem?.mp hlonger index hindex

namespace Lasts

theorem refl (model : Model) : Lasts model model where
  specs := List.prefix_refl _
  classes := List.prefix_refl _
  links := List.prefix_refl _
  required := List.Subset.refl _

/-- What lasts through two stretches of calls lasts through both. -/
theorem trans {between : Model} (hfirst : Lasts model between)
    (hsecond : Lasts between after) : Lasts model after where
  specs := hfirst.specs.trans hsecond.specs
  classes := hfirst.classes.trans hsecond.classes
  links := hfirst.links.trans hsecond.links
  required := List.Subset.trans hfirst.required hsecond.required

section Answers

variable (hlasts : Lasts model after)

include hlasts

theorem parcelIds_prefix : model.parcelIds <+: after.parcelIds := by
  have hlength := hlasts.specs.length_le
  simp only [Array.length_toList, size_specs] at hlength
  obtain ⟨more, hmore⟩ := Nat.exists_eq_add_of_le hlength
  rw [parcelIds, parcelIds, hmore, List.range_add, List.map_append]
  exact List.prefix_append _ _

theorem mem_parcelIds {id : ParcelId} (hid : id ∈ model.parcelIds) :
    id ∈ after.parcelIds :=
  hlasts.parcelIds_prefix.subset hid

/-- A parcel is described as before. -/
theorem toParcel_eq {id : ParcelId} (hid : id ∈ model.parcelIds) :
    (after.parcelAt id).toParcel = (model.parcelAt id).toParcel := by
  have hsame := getElem?_of_prefix hlasts.specs (getElem?_specs hid)
  rw [getElem?_specs (hlasts.mem_parcelIds hid)] at hsame
  exact Option.some.inj hsame

theorem parcelNamed?_eq_some {name : String} {id : ParcelId}
    (hnamed : model.parcelNamed? name = some id) :
    after.parcelNamed? name = some id := by
  have hold : model.parcelIds.find? (fun known => (after.parcelAt known).name == name) =
      some id := by
    rw [← hnamed, parcelNamed?]
    refine List.find?_congr fun known hknown => ?_
    rw [hlasts.toParcel_eq hknown]
  exact hlasts.parcelIds_prefix.find?_eq_some hold

theorem mem_classIds {id : ClassId} (hid : id ∈ model.classIds) : id ∈ after.classIds := by
  have hlength : model.classes.toList.length ≤ after.classes.toList.length :=
    hlasts.classes.length_le
  exact Model.mem_classIds.mpr (Nat.lt_of_lt_of_le (Model.mem_classIds.mp hid) hlength)

/-- An id goes on standing for the same class. -/
theorem classAt_eq {id : ClassId} (hid : id ∈ model.classIds) :
    after.classAt id = model.classAt id := by
  have hsame := getElem?_of_prefix hlasts.classes (getElem?_classes hid)
  rw [getElem?_classes (hlasts.mem_classIds hid)] at hsame
  exact Option.some.inj hsame

/-- A parcel that satisfies a prereq goes on satisfying it. -/
theorem satisfies {prereq : Prereq} {found : ParcelId} (hsatisfies : model.Satisfies prereq found) :
    after.Satisfies prereq found := by
  have hfound := (Model.parcelNamed?_eq_some hsatisfies.registered).1
  have hsame := hlasts.toParcel_eq hfound
  exact ⟨hlasts.parcelNamed?_eq_some hsatisfies.registered, hsame ▸ hsatisfies.version,
    hsame ▸ hsatisfies.majorVersion⟩

end Answers

end Lasts

/-! ## What one call leaves -/

theorem MakesLinks.links_kept {id : ParcelId} (hlinks : MakesLinks id model after) :
    model.links <+: after.links := by
  induction hlinks with
  | refl => exact List.prefix_refl _
  | tail _ hlink ih =>
      cases hlink with
      | link => exact ih.trans (List.prefix_append _ _)

theorem MakesLinks.lasts {id : ParcelId} (hlinks : MakesLinks id model after) :
    Lasts model after := by
  have hkept := hlinks.links_kept
  rw [hlinks.frame]
  exact ⟨List.prefix_refl _, List.prefix_refl _, hkept, List.Subset.refl _⟩

theorem Sound.checkPrereqs_lasts {id : ParcelId} (hsound : model.Sound)
    (hid : id ∈ model.parcelIds) : Lasts model (leftBy (checkPrereqs id model)) := by
  have hends : Ends (checkPrereqs id model) (fun _ => Lasts model) (fun _ => Lasts model) := by
    apply (checkPrereqs_ends hsound.settled hid).mono
    · intro _ _ hpassed
      obtain ⟨checks, rfl, hpassed⟩ := hpassed
      exact ⟨List.prefix_refl _, List.prefix_refl _, List.prefix_refl _,
        hpassed.required_subset⟩
    · intro _ _ hstopped
      obtain ⟨checks, rfl, hstopped⟩ := hstopped
      exact ⟨List.prefix_refl _, List.prefix_refl _, List.prefix_refl _,
        hstopped.required_subset⟩
  exact Ends.leftBy_iff.mp hends

/-- No call but the one that empties the model takes anything away. -/
theorem Effect.lasts {call : Call} (hsound : model.Sound)
    (heffect : Effect model call after) (hkeeps : call ≠ .reap) : Lasts model after := by
  cases heffect with
  | registered _ hregister =>
      obtain ⟨_, rfl, _, _⟩ := register_eq_ok hregister
      refine ⟨?_, List.prefix_refl _, List.prefix_refl _, List.Subset.refl _⟩
      simp [specs]
  | declared hid hadd =>
      obtain ⟨_, _, hdeclares⟩ := addClass_eq_ok hid hadd
      exact {
        specs := hdeclares.specs_eq ▸ List.prefix_refl _
        classes := by simp [hdeclares.classes_eq]
        links := hdeclares.links_eq ▸ List.prefix_refl _
        required := hdeclares.checks_eq ▸ List.Subset.refl _ }
  | checked hid => exact hsound.checkPrereqs_lasts hid
  | linked hlinks => exact hlinks.lasts
  | @sorted id linked hlinks _ =>
      have hlasts := hlinks.lasts
      exact ⟨(specs_setClasses linked id _) ▸ hlasts.specs, hlasts.classes, hlasts.links,
        hlasts.required⟩
  | noted => exact ⟨List.prefix_refl _, List.prefix_refl _, List.prefix_refl _,
      List.Subset.refl _⟩
  | reaped => exact absurd rfl hkeeps

/-! ## What any number of calls leaves -/

theorem Sound.continues (hsound : model.Sound) (hstep : Continues model after) :
    after.Sound ∧ Lasts model after := by
  obtain ⟨call, hvalid, hkeeps, rfl⟩ := hstep
  have heffect := Call.effect hvalid
  exact ⟨hsound.effect heffect, heffect.lasts hsound hkeeps⟩

/-- Through any number of calls a model stays sound, and what it holds stays in
it until it is emptied. -/
theorem Sound.lasts (hsound : model.Sound)
    (hsteps : Relation.ReflTransGen Continues model after) :
    after.Sound ∧ Lasts model after := by
  induction hsteps with
  | refl => exact ⟨hsound, .refl model⟩
  | tail _ hstep ih =>
      obtain ⟨hbetween, hlasts⟩ := ih
      obtain ⟨hafter, hlast⟩ := hbetween.continues hstep
      exact ⟨hafter, hlasts.trans hlast⟩

end Parcels.Model
