import Mathlib.Data.List.Sort
import Parcels.Sorting

/-!
# Sorted lists

Sorting by a total preorder is the library's insertion sort, so its result is
in order.
-/

namespace Parcels.Sorting

variable {Element : Type} (mayPrecede : Element → Element → Bool)

theorem insert_eq_orderedInsert (element : Element) (list : List Element) :
    insert mayPrecede element list =
      list.orderedInsert (fun left right => mayPrecede left right) element := by
  induction list with
  | nil => rfl
  | cons head tail ih => simp only [insert, List.orderedInsert_cons, ih]

theorem sort_eq_insertionSort (list : List Element) :
    sort mayPrecede list =
      list.insertionSort fun left right => mayPrecede left right := by
  induction list with
  | nil => rfl
  | cons head tail ih =>
      rw [sort, insert_eq_orderedInsert, ih, List.insertionSort_cons]

/-- Sorted by a total preorder, every element may precede those behind it. -/
theorem pairwise_sort
    (htotal : ∀ left right, mayPrecede left right ∨ mayPrecede right left)
    (htrans : ∀ first second third, mayPrecede first second →
      mayPrecede second third → mayPrecede first third)
    (list : List Element) :
    (sort mayPrecede list).Pairwise fun left right => mayPrecede left right := by
  have : Std.Total fun left right => (mayPrecede left right : Prop) := ⟨htotal⟩
  have : IsTrans Element fun left right => mayPrecede left right := ⟨htrans⟩
  rw [sort_eq_insertionSort]
  exact List.pairwise_insertionSort _ list

end Parcels.Sorting
