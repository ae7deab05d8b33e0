import Parcels.Proofs.Model.ClassSorting
import Parcels.Proofs.Model.FullSymbols

/-!
# Class variables

A class variable is a struct symbol in upper case, with the upper-case stem of
the parcel before it in its full form.  A parcel keeps struct symbols apart as
they are written.  So two of its classes differ in their variables unless their
struct symbols differ in case alone, and then they share both.
-/

namespace Parcels

/-! ## Upper and lower case -/

namespace Name

/-- It is the same to tell two letters apart in upper case and in lower case. -/
theorem toUpper_eq_toUpper_iff {left right : Char} :
    left.toUpper = right.toUpper ↔ left.toLower = right.toLower := by
  rw [← Char.toNat_inj, ← Char.toNat_inj, toNat_toUpper, toNat_toUpper, toNat_toLower,
    toNat_toLower]
  split_ifs <;> omega

theorem map_toUpper_eq_iff {left right : List Char} :
    left.map Char.toUpper = right.map Char.toUpper ↔
      left.map Char.toLower = right.map Char.toLower := by
  induction left generalizing right with
  | nil => simp
  | cons first others ih =>
      cases right with
      | nil => simp
      | cons first' others' => simp [toUpper_eq_toUpper_iff, ih]

theorem upperCase_eq_upperCase_iff {left right : String} :
    upperCase left = upperCase right ↔ lowerCase left = lowerCase right := by
  simp only [upperCase, lowerCase, String.ofList_inj, map_toUpper_eq_iff]

end Name

namespace Model

variable {model : Model} {id : ParcelId}

/-! ## Variables of one parcel -/

/-- The struct symbols of two classes are spelled with the same letters, in
upper or in lower case. -/
def SameLetters (model : Model) (left right : ClassId) : Prop :=
  Name.lowerCase (model.classAt left).structSymbol =
    Name.lowerCase (model.classAt right).structSymbol

/-- Neither the short nor the full variable of a class is that of another class
of its parcel. -/
def VariablesDiffer (model : Model) : Prop :=
  ∀ id, ∀ left ∈ model.classesOf id, ∀ right ∈ model.classesOf id, left ≠ right →
    (model.classAt left).shortVariable ≠ (model.classAt right).shortVariable ∧
      model.fullVariable left ≠ model.fullVariable right

theorem shortVariable_eq_iff {left right : ClassId} :
    (model.classAt left).shortVariable = (model.classAt right).shortVariable ↔
      model.SameLetters left right :=
  Name.upperCase_eq_upperCase_iff

/-- Classes of one parcel have the same stem. -/
theorem fullVariable_eq_iff {left right : ClassId}
    (howner : model.owner left = model.owner right) :
    model.fullVariable left = model.fullVariable right ↔ model.SameLetters left right := by
  rw [fullVariable, fullVariable, howner, String.append_right_inj, shortVariable_eq_iff]

/-- Two classes of one parcel differ in their struct symbols.  They differ in
both variables too, unless the struct symbols differ in case alone: then they
share the one and the other. -/
theorem classVariables_shared_iff (hreachable : model.Reachable) {left right : ClassId}
    (hleft : left ∈ model.classesOf id) (hright : right ∈ model.classesOf id)
    (hne : left ≠ right) :
    (model.classAt left).structSymbol ≠ (model.classAt right).structSymbol ∧
      ((model.classAt left).shortVariable = (model.classAt right).shortVariable ↔
        model.SameLetters left right) ∧
      (model.fullVariable left = model.fullVariable right ↔
        model.SameLetters left right) := by
  have hpartitioned := hreachable.sound.partitioned
  have howner : model.owner left = model.owner right :=
    (hpartitioned.owner_of_mem hleft).trans (hpartitioned.owner_of_mem hright).symm
  refine ⟨fun hsymbol => ?_, shortVariable_eq_iff, fullVariable_eq_iff howner⟩
  exact hne (hpartitioned.eq_of_structSymbol_eq hleft hright hsymbol)

/-! ## Two spellings of one name -/

/-- A farm with the classes `Cow`, `COW` and `Calf`. -/
def shoutedFarm : Model :=
  leftBy ((Call.addClass ⟨0⟩ { name := "Calf" }).run
    (leftBy ((Call.addClass ⟨0⟩ { name := "COW" }).run
      (leftBy ((Call.addClass ⟨0⟩ { name := "Cow" }).run
        (leftBy ((Call.register farm).run {})))))))

theorem shoutedFarm_reachable : shoutedFarm.Reachable := by
  refine .call (.call (.call (.call .empty farm_wellFormed) ?_) ?_) ?_
  all_goals exact mem_parcelIds.mpr (by decide)

theorem shoutedFarm_lists : shoutedFarm.classesOf ⟨0⟩ = [⟨0⟩, ⟨1⟩, ⟨2⟩] := by
  decide

theorem shoutedFarm_shares_variables :
    shoutedFarm.Reachable ∧
      (shoutedFarm.classAt ⟨0⟩).shortVariable = (shoutedFarm.classAt ⟨1⟩).shortVariable ∧
      shoutedFarm.fullVariable ⟨0⟩ = shoutedFarm.fullVariable ⟨1⟩ ∧
      shoutedFarm.fullVariable ⟨0⟩ = "FARM_COW" ∧
      (shoutedFarm.classAt ⟨0⟩).shortVariable ≠ (shoutedFarm.classAt ⟨2⟩).shortVariable ∧
      shoutedFarm.fullVariable ⟨0⟩ ≠ shoutedFarm.fullVariable ⟨2⟩ := by
  have hmember : ∀ index < 3, ⟨index⟩ ∈ shoutedFarm.classesOf ⟨0⟩ := by
    rw [shoutedFarm_lists]
    decide
  have hsame : shoutedFarm.SameLetters ⟨0⟩ ⟨1⟩ := by
    unfold SameLetters
    decide
  have hother : ¬ shoutedFarm.SameLetters ⟨0⟩ ⟨2⟩ := by
    unfold SameLetters
    decide
  obtain ⟨-, hshort, hfull⟩ := classVariables_shared_iff shoutedFarm_reachable
    (hmember 0 (by decide)) (hmember 1 (by decide)) (by decide)
  obtain ⟨-, hshort', hfull'⟩ := classVariables_shared_iff shoutedFarm_reachable
    (hmember 0 (by decide)) (hmember 2 (by decide)) (by decide)
  exact ⟨shoutedFarm_reachable, hshort.mpr hsame, hfull.mpr hsame, by decide,
    hshort'.not.mpr hother, hfull'.not.mpr hother⟩

/-- Classes whose names differ only in case share their variables. -/
theorem variables_not_always_different :
    ¬ ∀ model : Model, model.Reachable → model.VariablesDiffer := by
  intro hallDiffer
  have hlists := shoutedFarm_lists
  have hdiffer := hallDiffer shoutedFarm shoutedFarm_reachable ⟨0⟩ ⟨0⟩ (by simp [hlists]) ⟨1⟩
    (by simp [hlists]) (by decide)
  exact hdiffer.1 (by decide)

end Model

end Parcels
