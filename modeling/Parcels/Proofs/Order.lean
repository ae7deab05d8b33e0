import Mathlib.Data.List.Nodup
import Mathlib.Data.List.Flatten

/-!
# Places in a list

One element precedes another in a list that holds both in this order.  In a
list without repetitions this is a strict order of its elements.
-/

namespace Parcels

variable {Element : Type}

/-- `first` occurs in the list before some occurrence of `second`. -/
def Precedes (list : List Element) (first second : Element) : Prop :=
  [first, second].Sublist list

namespace Precedes

instance [DecidableEq Element] (list : List Element) (first second : Element) :
    Decidable (Precedes list first second) :=
  inferInstanceAs (Decidable ([first, second].Sublist list))

variable {list longer : List Element} {first second third : Element}

theorem mem_second (hprecedes : Precedes list first second) : second ∈ list :=
  hprecedes.subset (by simp)

theorem mono (hprecedes : Precedes list first second)
    (hlonger : list.Sublist longer) : Precedes longer first second :=
  List.Sublist.trans hprecedes hlonger

theorem append_right (hprecedes : Precedes list first second)
    (more : List Element) : Precedes (list ++ more) first second :=
  hprecedes.mono (List.sublist_append_left list more)

theorem of_mem_append {left right : List Element} (hfirst : first ∈ left)
    (hsecond : second ∈ right) : Precedes (left ++ right) first second :=
  (List.singleton_sublist.mpr hfirst).append (List.singleton_sublist.mpr hsecond)

theorem irrefl (hnodup : list.Nodup) : ¬ Precedes list first first := by
  intro hprecedes
  have := hnodup.sublist hprecedes
  simp at this

/-- In a list without repetitions, what precedes an element is what stands
before it. -/
theorem iff_mem_of_split {before after : List Element}
    (hnodup : (before ++ second :: after).Nodup) :
    Precedes (before ++ second :: after) first second ↔ first ∈ before := by
  constructor
  · intro hprecedes
    obtain ⟨left, right, heq, hleft, hright⟩ :=
      List.sublist_append_iff.mp hprecedes
    have hdisjoint := List.disjoint_of_nodup_append hnodup
    match left, right, heq with
    | [], [_, _], rfl =>
        have htail : (second :: after).Nodup := hnodup.of_append_right
        cases hright with
        | cons _ hafter =>
            exact absurd (hafter.subset (by simp)) (List.nodup_cons.mp htail).1
        | cons_cons _ hafter =>
            exact absurd (hafter.subset (by simp)) (List.nodup_cons.mp htail).1
    | [_], [_], rfl => exact hleft.subset (by simp)
    | [_, _], [], rfl =>
        exact absurd (List.mem_cons_self) (hdisjoint (hleft.subset (by simp)))
  · intro hfirst
    exact of_mem_append hfirst (by simp)

theorem trans (hnodup : list.Nodup) (hfirst : Precedes list first second)
    (hsecond : Precedes list second third) : Precedes list first third := by
  obtain ⟨before, after, rfl⟩ := List.append_of_mem hfirst.mem_second
  have hbefore : first ∈ before := (iff_mem_of_split hnodup).mp hfirst
  have hthird : third ∈ second :: after := by
    have hnotBefore : third ∉ before := by
      intro hthird
      obtain ⟨start, middle, rfl⟩ := List.append_of_mem hthird
      rw [List.append_assoc] at hnodup hsecond
      have hstart := (iff_mem_of_split hnodup).mp hsecond
      have hapart := List.disjoint_of_nodup_append hnodup hstart
      simp at hapart
    simpa [hnotBefore] using hsecond.mem_second
  exact of_mem_append hbefore hthird

theorem asymm (hnodup : list.Nodup) (hforward : Precedes list first second) :
    ¬ Precedes list second first :=
  fun hback => irrefl hnodup (hforward.trans hnodup hback)

theorem total (hfirst : first ∈ list) (hsecond : second ∈ list)
    (hne : first ≠ second) :
    Precedes list first second ∨ Precedes list second first := by
  obtain ⟨before, after, rfl⟩ := List.append_of_mem hsecond
  rcases List.mem_append.mp hfirst with hbefore | hafter
  · exact .inl (of_mem_append hbefore (by simp))
  · have htail : first ∈ after := by simpa [hne] using hafter
    refine .inr (Precedes.mono ?_ (List.sublist_append_right before _))
    exact List.Sublist.cons_cons second (List.singleton_sublist.mpr htail)

/-- The elements of a part stand in the order of the part. -/
theorem iff_of_sublist (hnodup : longer.Nodup) (hpart : list.Sublist longer)
    (hfirst : first ∈ list) (hsecond : second ∈ list) :
    Precedes longer first second ↔ Precedes list first second := by
  refine ⟨fun hprecedes => ?_, fun hprecedes => hprecedes.mono hpart⟩
  have hne : first ≠ second := by
    rintro rfl
    exact irrefl hnodup hprecedes
  rcases total hfirst hsecond hne with hforward | hback
  · exact hforward
  · exact absurd (hback.mono hpart) (hprecedes.asymm hnodup)

theorem map {Image : Type} (image : Element → Image) (hprecedes : Precedes list first second) :
    Precedes (list.map image) (image first) (image second) :=
  List.Sublist.map image hprecedes

/-- Parts that are put in the place of the elements keep their order. -/
theorem flatMap {Part : Type} {parts : Element → List Part} {left right : Part}
    (hprecedes : Precedes list first second) (hleft : left ∈ parts first)
    (hright : right ∈ parts second) :
    Precedes (list.flatMap parts) left right := by
  have hpair : Precedes (parts first ++ parts second) left right :=
    of_mem_append hleft hright
  apply hpair.mono
  simpa using List.Sublist.flatMap hprecedes parts

/-- In a sorted list without repetitions, the order of places is the order
that the list is sorted by. -/
theorem iff_of_pairwise {relation : Element → Element → Prop}
    (hpairwise : list.Pairwise relation)
    (hasymm : ∀ left right, relation left right → ¬ relation right left)
    (hfirst : first ∈ list) (hsecond : second ∈ list) :
    Precedes list first second ↔ relation first second := by
  have hprecedes : ∀ {left right}, Precedes list left right →
      relation left right := List.pairwise_iff_forall_sublist.mp hpairwise
  constructor
  · exact hprecedes
  · intro hrelation
    have hne : first ≠ second := by
      rintro rfl
      exact hasymm first first hrelation hrelation
    rcases total hfirst hsecond hne with hforward | hback
    · exact hforward
    · exact absurd (hprecedes hback) (hasymm first second hrelation)

end Precedes

end Parcels
