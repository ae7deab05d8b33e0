/-!
# Stable sorting by a comparison

Class lists, versions and discovered paths are put in order by one structural
insertion sort.  Elements that compare as equal keep the order in which they
were given.
-/

namespace Parcels.Sorting

variable {Element : Type}

/-- Insert before the first element that may follow the new one. -/
def insert (mayPrecede : Element → Element → Bool) (element : Element) :
    List Element → List Element
  | [] => [element]
  | head :: tail =>
      if mayPrecede element head then element :: head :: tail
      else head :: insert mayPrecede element tail

/-- Sort by `mayPrecede`, a total preorder. -/
def sort (mayPrecede : Element → Element → Bool) :
    List Element → List Element
  | [] => []
  | head :: tail => insert mayPrecede head (sort mayPrecede tail)

theorem insert_perm (mayPrecede : Element → Element → Bool) (element : Element)
    (list : List Element) :
    (insert mayPrecede element list).Perm (element :: list) := by
  induction list with
  | nil => exact List.Perm.refl _
  | cons head tail ih =>
      simp only [insert]
      split
      · exact List.Perm.refl _
      · exact (List.Perm.cons head ih).trans (List.Perm.swap element head tail)

theorem sort_perm (mayPrecede : Element → Element → Bool) (list : List Element) :
    (sort mayPrecede list).Perm list := by
  induction list with
  | nil => exact List.Perm.refl _
  | cons head tail ih =>
      exact (insert_perm mayPrecede head _).trans (List.Perm.cons head ih)

end Parcels.Sorting
