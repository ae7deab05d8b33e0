import Parcels.Proofs.Model.Links

/-!
# Connecting a parcel

Connecting a parcel links each of its classes that is not linked yet and then
replaces its list.  Links do not change what a name finds, so the model before
decides which links are made and how the call ends.
-/

namespace Parcels.Model

variable {model : Model}

/-- The class that the declared parent name of a class finds. -/
def declaredParent? (model : Model) (id : ParcelId) (child : ClassId) :
    Option ClassId :=
  (model.classAt child).parentName.bind (model.findInScope? id)

/-- The parent that a class of a parcel has or, if it has none, would get. -/
def prospectiveParent? (model : Model) (id : ParcelId) (child : ClassId) :
    Option ClassId :=
  (model.parent? child).or (model.declaredParent? id child)

/-- A class that is not linked finds the parent that it declares, if any, and
may inherit from it. -/
def Linkable (model : Model) (id : ParcelId) (child : ClassId) : Prop :=
  model.parent? child = none →
    ∀ parentName, (model.classAt child).parentName = some parentName →
      ∃ parent, model.findInScope? id parentName = some parent ∧
        (model.classAt parent).isFinal = false

/-- The link that a class still lacks. -/
def missingLink? (model : Model) (id : ParcelId) (child : ClassId) : Option Link :=
  if (model.parent? child).isSome then none
  else (model.declaredParent? id child).map (Link.mk child)

/-- The model in which some classes of a parcel have got the links that they
lacked. -/
def linking (model : Model) (id : ParcelId) (children : List ClassId) : Model :=
  { model with
    links := model.links ++ children.filterMap (model.missingLink? id) }

section Linking

variable {id : ParcelId} {done : List ClassId} {child : ClassId}

theorem find?_missingLinks (hunlinked : model.parent? child = none) :
    ((done.filterMap (model.missingLink? id)).find? fun link =>
        link.child == child).map Link.parent =
      if child ∈ done then model.declaredParent? id child else none := by
  induction done with
  | nil => rfl
  | cons first rest ih =>
      by_cases hfirst : first = child
      · subst hfirst
        cases hdeclared : model.declaredParent? id first with
        | none => simpa [missingLink?, hunlinked, hdeclared] using ih
        | some parent => simp [missingLink?, hunlinked, hdeclared]
      · have hskip : ∀ link, model.missingLink? id first = some link →
            link.child ≠ child := by
          intro link hlink
          rw [missingLink?] at hlink
          split at hlink
          · cases hlink
          · obtain ⟨parent, _, rfl⟩ := Option.map_eq_some_iff.mp hlink
            exact hfirst
        cases hmissing : model.missingLink? id first with
        | none => simpa [hmissing, Ne.symm hfirst] using ih
        | some link => simpa [hmissing, Ne.symm hfirst, hskip link hmissing] using ih

theorem parent?_linking :
    (model.linking id done).parent? child =
      if child ∈ done then model.prospectiveParent? id child
      else model.parent? child := by
  have happend : (model.linking id done).parent? child =
      (model.parent? child).or
        (((done.filterMap (model.missingLink? id)).find? fun link =>
          link.child == child).map Link.parent) := by
    simp [parent?, linking, List.find?_append, Option.map_or]
  rw [happend, prospectiveParent?]
  cases hparent : model.parent? child with
  | some parent => simp
  | none =>
      rw [Option.none_or, find?_missingLinks hparent, Option.none_or]

end Linking

/-! ## The loop over the classes -/

/-- Linking one class fails just when the class is not linkable. -/
theorem linkParent_ends {id : ParcelId} {child : ClassId}
    (hmember : child ∈ model.classesOf id) :
    Ends (linkParent id child model)
      (fun _ after => model.Linkable id child ∧ MakesLinks id model after ∧
        after = model.linking id [child])
      (fun _ after => ¬ model.Linkable id child ∧ after = model) := by
  have hnone : model.missingLink? id child = none →
      model = model.linking id [child] := by
    intro hmissing
    simp [linking, hmissing]
  unfold linkParent
  rw [bind_get]
  split
  · next hlinked =>
    refine ⟨fun hunlinked => ?_, .refl, hnone (by simp [missingLink?, hlinked])⟩
    simp [hunlinked] at hlinked
  · next hparent =>
    have hunlinked : model.parent? child = none := by simpa using hparent
    cases hdeclared : (model.classAt child).parentName with
    | none =>
        refine ⟨fun _ name hname => ?_, .refl, hnone ?_⟩
        · simp [hdeclared] at hname
        · simp [missingLink?, declaredParent?, hdeclared]
    | some parentName =>
        have hname : ∀ name, (model.classAt child).parentName = some name →
            name = parentName := by
          intro name hname
          exact Option.some.inj (hname.symm.trans hdeclared)
        cases hfound : model.findInScope? id parentName with
        | none =>
            simp only [hfound]
            refine ⟨fun hlinkable => ?_, rfl⟩
            obtain ⟨parent, hparent, _⟩ := hlinkable hunlinked _ hdeclared
            simp [hfound] at hparent
        | some parent =>
            simp only [hfound]
            split
            · next hfinal =>
              refine ⟨fun hlinkable => ?_, rfl⟩
              obtain ⟨other, hother, hheritable⟩ := hlinkable hunlinked _ hdeclared
              obtain rfl := Option.some.inj (hfound.symm.trans hother)
              simp [hfinal] at hheritable
            · next hheritable =>
              have hheritable : (model.classAt parent).isFinal = false := by
                simpa using hheritable
              refine ⟨fun _ name hdeclares => ?_, .single ?_, ?_⟩
              · rw [hname name hdeclares]
                exact ⟨parent, hfound, hheritable⟩
              · exact .link hmember hunlinked hdeclared hfound hheritable
              · simp [linking, missingLink?, declaredParent?, hunlinked, hdeclared,
                  hfound]

/-- The model in which every class of a parcel has got the link that it
lacked. -/
def connected (model : Model) (id : ParcelId) : Model :=
  model.linking id (model.classesOf id)

/-- Linking the classes of a parcel one after another comes to linking all of
them, and it fails just when one of them is not linkable. -/
theorem forM_linkParent_ends {id : ParcelId} (hnodup : (model.classesOf id).Nodup) :
    Ends ((model.classesOf id).forM (linkParent id) model)
      (fun _ after => (∀ child ∈ model.classesOf id, model.Linkable id child) ∧
        MakesLinks id model after ∧ after = model.connected id)
      (fun _ _ => ¬ ∀ child ∈ model.classesOf id, model.Linkable id child) := by
  refine Ends.forM (fun done after => (∀ child ∈ done, model.Linkable id child) ∧
    MakesLinks id model after ∧ after = model.linking id done) ?_
    ⟨by simp, .refl, by simp [linking]⟩
  intro done child rest before hmembers hdone
  obtain ⟨hlinkable, hlinks, rfl⟩ := hdone
  have hmember : child ∈ (model.linking id done).classesOf id := by
    change child ∈ model.classesOf id
    simp [hmembers]
  have hnew : child ∉ done := by
    rw [hmembers, List.nodup_append] at hnodup
    exact fun hmem => hnodup.2.2 child hmem child (by simp) rfl
  -- What is missing for a class is found by the model before the loop.
  have hparent : (model.linking id done).parent? child = model.parent? child := by
    rw [parent?_linking, if_neg hnew]
  have hsame : (model.linking id done).Linkable id child ↔
      model.Linkable id child := by
    rw [Linkable, hparent]
    exact Iff.rfl
  have hmissing : [child].filterMap ((model.linking id done).missingLink? id) =
      [child].filterMap (model.missingLink? id) := by
    apply List.filterMap_congr
    intro other hother
    obtain rfl := List.mem_singleton.mp hother
    rw [missingLink?, hparent]
    rfl
  have hnext : (model.linking id done).linking id [child] =
      model.linking id (done ++ [child]) := by
    calc (model.linking id done).linking id [child]
        = { model with links := model.links ++
              done.filterMap (model.missingLink? id) ++
              [child].filterMap (model.missingLink? id) } := by
          rw [linking, hmissing]
          rfl
      _ = model.linking id (done ++ [child]) := by
          rw [linking, List.filterMap_append, List.append_assoc]
  refine (linkParent_ends hmember).mono ?_ ?_
  · intro _ after hafter
    obtain ⟨hhere, hlink, rfl⟩ := hafter
    refine ⟨?_, hlinks.trans hlink, hnext⟩
    exact List.forall_mem_append.mpr
      ⟨hlinkable, List.forall_mem_singleton.mpr (hsame.mp hhere)⟩
  · intro _ after hafter
    obtain ⟨hnot, rfl⟩ := hafter
    exact fun hall => hnot (hsame.mpr (hall child (by simp [hmembers])))

/-- The links of a parcel that can all be made are made by connecting it. -/
theorem makesLinks_connected {id : ParcelId} (hnodup : (model.classesOf id).Nodup)
    (hlinkable : ∀ child ∈ model.classesOf id, model.Linkable id child) :
    MakesLinks id model (model.connected id) := by
  have hends := forM_linkParent_ends hnodup
  cases hrun : (model.classesOf id).forM (linkParent id) model with
  | error error after =>
      rw [hrun] at hends
      exact absurd hlinkable hends
  | ok _ after =>
      obtain ⟨_, hlinks, rfl⟩ := hends.of_eq_ok hrun
      exact hlinks

/-! ## The whole call -/

/-- The error of a sort of the classes `members` whose walk has not met all of
them. -/
def sortError (model : Model) (id : ParcelId) (members : List ClassId) : Error :=
  match model.sortByName (members.filter fun member =>
      member ∉ model.inheritanceOrder id) with
  | first :: _ => .inheritanceCycle (model.className first)
  | [] => .unbalancedSort (model.parcelAt id).name members.length
      (model.inheritanceOrder id).length

/-- When the classes have been linked, the list of the parcel is replaced or
nothing more happens. -/
theorem connectAndSort_of_loop {id : ParcelId} {onLinked : Model → Prop}
    {onStopped : Error → Model → Prop}
    (hloop : Ends ((model.classesOf id).forM (linkParent id) model)
      (fun _ => onLinked) onStopped) :
    Ends (connectAndSort id model)
      (fun _ after => ∃ linked, onLinked linked ∧
        (linked.inheritanceOrder id).length = (model.classesOf id).length ∧
        after = linked.setClasses id (linked.inheritanceOrder id))
      (fun error after => onStopped error after ∨ onLinked after ∧
        (after.inheritanceOrder id).length ≠ (model.classesOf id).length ∧
        error = after.sortError id (model.classesOf id)) := by
  unfold connectAndSort
  rw [bind_get]
  apply Ends.andThen (hloop.mono (fun _ _ hlinked => hlinked) fun _ _ => .inl)
  intro _ linked hlinked
  rw [bind_get]
  split
  · next hlength => exact ⟨linked, hlinked, hlength, rfl⟩
  · next hlength =>
    cases hrest : linked.sortByName ((model.classesOf id).filter fun member =>
      member ∉ linked.inheritanceOrder id) with
    | nil => exact .inr ⟨hlinked, hlength, by rw [sortError, hrest]⟩
    | cons first rest => exact .inr ⟨hlinked, hlength, by rw [sortError, hrest]⟩

/-- Classes are linked one after another; then the list of the parcel is
replaced, or nothing more happens. -/
theorem connectAndSort_ends (model : Model) (id : ParcelId) :
    Ends (connectAndSort id model)
      (fun _ after => ∃ linked, MakesLinks id model linked ∧
        (linked.inheritanceOrder id).length = (model.classesOf id).length ∧
        after = linked.setClasses id (linked.inheritanceOrder id))
      (fun _ after => MakesLinks id model after) := by
  have hloop : Ends ((model.classesOf id).forM (linkParent id) model)
      (fun _ => MakesLinks id model) (fun _ after => MakesLinks id model after) := by
    refine Ends.forM (fun _ => MakesLinks id model) ?_ .refl
    intro done child rest linked hmembers hlinks
    have hmember : child ∈ linked.classesOf id := by
      rw [MakesLinks.frame hlinks]
      change child ∈ model.classesOf id
      simp [hmembers]
    refine (linkParent_ends hmember).mono ?_ ?_
    · exact fun _ after hmore => hlinks.trans hmore.2.1
    · rintro _ after ⟨_, rfl⟩
      exact hlinks
  apply (connectAndSort_of_loop hloop).mono (fun _ _ hsorted => hsorted)
  intro _ after hstopped
  rcases hstopped with hlinks | hlinks
  · exact hlinks
  · exact hlinks.1

/-- Every class of a parcel is linkable and, once all are linked, the walk meets
each of them. -/
def Connectable (model : Model) (id : ParcelId) : Prop :=
  (∀ child ∈ model.classesOf id, model.Linkable id child) ∧
    ((model.connected id).inheritanceOrder id).length = (model.classesOf id).length

/-- The model before decides how connecting a parcel ends. -/
theorem connectAndSort_connects {id : ParcelId} (hnodup : (model.classesOf id).Nodup) :
    Ends (connectAndSort id model)
      (fun _ after => model.Connectable id ∧
        after = (model.connected id).setClasses id
          ((model.connected id).inheritanceOrder id))
      (fun _ _ => ¬ model.Connectable id) := by
  apply (connectAndSort_of_loop (forM_linkParent_ends hnodup)).mono
  · intro _ after hsorted
    obtain ⟨linked, ⟨hlinkable, hlinks, rfl⟩, hlength, rfl⟩ := hsorted
    exact ⟨⟨hlinkable, hlength⟩, rfl⟩
  · intro _ after hstopped hpasses
    rcases hstopped with hnot | ⟨⟨_, _, rfl⟩, hlength, _⟩
    · exact hnot hpasses.1
    · exact hlength hpasses.2

end Parcels.Model
