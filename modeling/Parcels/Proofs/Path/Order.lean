import Mathlib.Data.List.Basic
import Parcels.Path
import Parcels.Proofs.Sorting

/-!
# The order of paths

Paths are compared component by component.  The comparison is a linear order of
components, and below one directory it is the lexicographic order of the names
that lead to a file.
-/

namespace Parcels.Path

/-! ## Components -/

/-- What comes first in a path goes before names, and names go by their bytes. -/
theorem compare_eq_compareLex :
    Component.compare = compareLex (compareOn Component.rank) (compareOn Component.raw) := by
  funext left right
  cases left <;> cases right <;> rfl

theorem compareComponents_eq_compareLex :
    compareComponents = List.compareLex Component.compare := by
  funext lefts rights
  induction lefts generalizing rights with
  | nil => cases rights <;> rfl
  | cons left lefts ih =>
      cases rights with
      | nil => rfl
      | cons right rights => rw [compareComponents, ih, List.compareLex_cons_cons]

instance : Std.TransCmp Component.compare := by
  rw [compare_eq_compareLex]
  infer_instance

instance : Std.LawfulEqCmp Component.compare where
  eq_of_compare {left right} hequal := by
    cases left <;> cases right <;> simp_all [Component.compare, Component.rank]

instance : Std.TransCmp compareComponents := by
  rw [compareComponents_eq_compareLex]
  infer_instance

instance : Std.LawfulEqCmp compareComponents := by
  rw [compareComponents_eq_compareLex]
  infer_instance

/-! ## Names below one directory -/

variable {names others : List RawText}

theorem compareComponents_append (start lefts rights : List Component) :
    compareComponents (start ++ lefts) (start ++ rights) = compareComponents lefts rights := by
  induction start with
  | nil => rfl
  | cons component start ih =>
      have hsame : Component.compare component component = .eq := Std.ReflCmp.compare_self
      rw [List.cons_append, List.cons_append, compareComponents, hsame, ih]
      rfl

/-- Names are in the order of their first bytes that differ. -/
theorem compare_names_eq_lt_iff {name other : RawText} :
    Ord.compare name other = .lt ↔ name < other := by
  induction name generalizing other with
  | nil => cases other <;> simp
  | cons byte name ih =>
      cases other with
      | nil => simp
      | cons first other =>
          rw [List.compare_eq_compareLex] at ih ⊢
          rw [List.compareLex_cons_cons, Ordering.then_eq_lt, ih, List.cons_lt_cons_iff]
          exact or_congr Std.compare_eq_lt (and_congr Std.compare_eq_iff_eq Iff.rfl)

theorem compareComponents_names_eq_lt_iff :
    compareComponents (names.map .name) (others.map .name) = .lt ↔ names < others := by
  induction names generalizing others with
  | nil => cases others <;> simp [compareComponents]
  | cons name names ih =>
      cases others with
      | nil => simp [compareComponents]
      | cons other others =>
          rw [List.map_cons, List.map_cons, compareComponents, Ordering.then_eq_lt, ih,
            List.cons_lt_cons_iff]
          exact or_congr compare_names_eq_lt_iff (and_congr Std.compare_eq_iff_eq Iff.rfl)

/-- Paths below one directory are in the order of the names that lead to them. -/
theorem compareComponents_below_eq_lt_iff (start : List Component) :
    compareComponents (start ++ names.map .name) (start ++ others.map .name) = .lt ↔
      names < others := by
  rw [compareComponents_append, compareComponents_names_eq_lt_iff]

/-! ## Sorting -/

variable {first second third : Path} {paths : List Path}

theorem mayPrecede_iff :
    mayPrecede first second = true ↔
      (compareComponents first.components second.components).isLE = true := by
  rw [mayPrecede, bne_iff_ne, Ordering.isLE_iff_ne_gt]

theorem mayPrecede_total (first second : Path) :
    mayPrecede first second = true ∨ mayPrecede second first = true := by
  rw [mayPrecede_iff, mayPrecede_iff, or_iff_not_imp_left]
  intro hnot
  exact Ordering.isLE_of_eq_lt (Std.OrientedCmp.lt_of_not_isLE hnot)

theorem mayPrecede_trans (hfirst : mayPrecede first second = true)
    (hsecond : mayPrecede second third = true) : mayPrecede first third = true := by
  rw [mayPrecede_iff] at *
  exact Std.TransCmp.isLE_trans hfirst hsecond

theorem compareComponents_asymm (left right : Path)
    (hless : compareComponents left.components right.components = .lt) :
    ¬ compareComponents right.components left.components = .lt :=
  Std.OrientedCmp.not_lt_of_lt hless

theorem compareComponents_eq_lt (hprecede : mayPrecede first second = true)
    (hne : first.components ≠ second.components) :
    compareComponents first.components second.components = .lt := by
  cases horder : compareComponents first.components second.components with
  | lt => rfl
  | eq => exact absurd (Std.LawfulEqCmp.eq_of_compare horder) hne
  | gt => simp [mayPrecede, horder] at hprecede

/-- Paths that are all different are put in a strict order. -/
theorem pairwise_sort (hpaths : (paths.map components).Nodup) :
    (Sorting.sort mayPrecede paths).Pairwise fun earlier later =>
      compareComponents earlier.components later.components = .lt := by
  have hdistinct : (Sorting.sort mayPrecede paths).Pairwise fun earlier later =>
      earlier.components ≠ later.components :=
    List.pairwise_map.mp
      (((Sorting.sort_perm mayPrecede paths).map components).nodup_iff.mpr hpaths)
  have hsorted := Sorting.pairwise_sort mayPrecede mayPrecede_total
    (fun _ _ _ => mayPrecede_trans) paths
  exact hsorted.imp₂ (fun _ _ => compareComponents_eq_lt) hdistinct

end Parcels.Path
