import Mathlib.Data.List.Basic
import Mathlib.Order.Compare
import Mathlib.Order.PiLex
import Parcels.Version

/-!
# The order of versions

A version stands for an infinite sequence: its numbers and then zeros.  The
comparison is the lexicographic order of these sequences, so it is a total
preorder.  Versions that compare as equal are told apart neither by `==` nor by
a hasher, however many zeros are written.
-/

namespace Parcels.Version

/-! ## Infinite sequences -/

section Sequences

variable {first second : Nat → Nat}

/-- Where the first numbers agree, what follows them decides. -/
theorem toLex_lt_iff_succ (hfirst : first 0 = second 0) :
    toLex first < toLex second ↔
      toLex (fun place => first (place + 1)) < toLex (fun place => second (place + 1)) := by
  constructor
  · rintro ⟨place, hbefore, hless⟩
    cases place with
    | zero => exact absurd hfirst hless.ne
    | succ place => exact ⟨place, fun earlier hearlier => hbefore (earlier + 1) (by omega), hless⟩
  · rintro ⟨place, hbefore, hless⟩
    refine ⟨place + 1, fun earlier hearlier => ?_, hless⟩
    cases earlier with
    | zero => exact hfirst
    | succ earlier => exact hbefore earlier (by omega)

theorem eq_iff_succ :
    first = second ↔ first 0 = second 0 ∧
      (fun place => first (place + 1)) = fun place => second (place + 1) := by
  constructor
  · rintro rfl
    exact ⟨rfl, rfl⟩
  · rintro ⟨hfirst, hrest⟩
    funext place
    cases place with
    | zero => exact hfirst
    | succ place => exact congrFun hrest place

/-- The first numbers decide, or else what follows them does. -/
theorem compares_then {atFirst beyond : Ordering} (hfirst : atFirst.Compares (first 0) (second 0))
    (hbeyond : beyond.Compares (toLex fun place => first (place + 1))
      (toLex fun place => second (place + 1))) :
    (atFirst.then beyond).Compares (toLex first) (toLex second) := by
  have hnone : ∀ earlier < 0, first earlier = second earlier := by simp
  cases atFirst with
  | lt => exact ⟨0, hnone, hfirst⟩
  | gt => exact ⟨0, fun earlier hearlier => (hnone earlier hearlier).symm, hfirst⟩
  | eq =>
      cases beyond with
      | lt => exact (toLex_lt_iff_succ hfirst).mpr hbeyond
      | eq => exact eq_iff_succ.mpr ⟨hfirst, hbeyond⟩
      | gt => exact (toLex_lt_iff_succ (Eq.symm hfirst)).mpr hbeyond

end Sequences

/-! ## Numbers and then zeros -/

/-- The sequence of the numbers, with zeros behind them. -/
def padded (numbers : List Nat) (place : Nat) : Nat :=
  numbers.getD place 0

theorem padded_cons_eq_iff {head other : Nat} {tail others : List Nat} :
    padded (head :: tail) = padded (other :: others) ↔
      head = other ∧ padded tail = padded others :=
  eq_iff_succ

theorem padded_cons_eq_nil_iff {head : Nat} {tail : List Nat} :
    padded (head :: tail) = padded [] ↔ head = 0 ∧ padded tail = padded [] :=
  eq_iff_succ

theorem padded_concat_zero (numbers : List Nat) : padded (numbers ++ [0]) = padded numbers := by
  induction numbers with
  | nil => exact padded_cons_eq_nil_iff.mpr ⟨rfl, rfl⟩
  | cons head tail ih => exact padded_cons_eq_iff.mpr ⟨rfl, ih⟩

theorem dropTrailingZeros_eq_nil_iff {numbers : List Nat} :
    dropTrailingZeros numbers = [] ↔ padded numbers = padded [] := by
  induction numbers with
  | nil => exact iff_of_true rfl rfl
  | cons head tail ih =>
      rw [padded_cons_eq_nil_iff, ← ih, dropTrailingZeros]
      cases dropTrailingZeros tail with
      | nil => simp
      | cons kept others => simp

theorem dropTrailingZeros_cons_eq_iff {head other : Nat} {tail others : List Nat} :
    dropTrailingZeros (head :: tail) = dropTrailingZeros (other :: others) ↔
      head = other ∧ dropTrailingZeros tail = dropTrailingZeros others := by
  rw [dropTrailingZeros, dropTrailingZeros]
  cases dropTrailingZeros tail with
  | nil => cases dropTrailingZeros others <;> grind
  | cons kept more => cases dropTrailingZeros others <;> grind

/-- Leaving zeros out and adding them tell the same numbers apart. -/
theorem dropTrailingZeros_eq_iff {left right : List Nat} :
    dropTrailingZeros left = dropTrailingZeros right ↔ padded left = padded right := by
  induction left generalizing right with
  | nil => rw [dropTrailingZeros, eq_comm, dropTrailingZeros_eq_nil_iff, eq_comm]
  | cons head tail ih =>
      cases right with
      | nil => exact dropTrailingZeros_eq_nil_iff
      | cons other others => rw [dropTrailingZeros_cons_eq_iff, padded_cons_eq_iff, ih]

/-! ## Comparing numbers -/

theorem swap_compareNumbers (left right : List Nat) :
    (compareNumbers left right).swap = compareNumbers right left := by
  induction left generalizing right with
  | nil =>
      cases right with
      | nil => rfl
      | cons head tail =>
          rw [compareNumbers, compareNumbers.eq_2 (head :: tail) (by simp)]
          split <;> rfl
  | cons head tail ih =>
      cases right with
      | nil =>
          rw [compareNumbers, compareNumbers.eq_2 (head :: tail) (by simp)]
          split <;> rfl
      | cons other others =>
          rw [compareNumbers, compareNumbers, Ordering.swap_then, ih,
            Nat.compare_swap]

theorem swap_compare (left right : Version) :
    (compare left right).swap = compare right left :=
  swap_compareNumbers left.numbers right.numbers

theorem isBelow_iff {left right : Version} :
    left.isBelow right ↔ compare right left = .gt := by
  rw [isBelow, beq_iff_eq, ← swap_compare left right, Ordering.swap_eq_gt]

theorem compareNumbers_nil_cons (head : Nat) (tail : List Nat) :
    compareNumbers [] (head :: tail) = (compare 0 head).then (compareNumbers [] tail) := by
  cases head with
  | zero => simp [compareNumbers]
  | succ head =>
      have hless : compare 0 (head + 1) = .lt := compare_lt_iff_lt.mpr head.succ_pos
      simp [compareNumbers, hless]

/-- The comparison is the lexicographic order of the sequences. -/
theorem compareNumbers_compares (left right : List Nat) :
    (compareNumbers left right).Compares (toLex (padded left)) (toLex (padded right)) := by
  have hnil : ∀ numbers,
      (compareNumbers [] numbers).Compares (toLex (padded [])) (toLex (padded numbers)) := by
    intro numbers
    induction numbers with
    | nil => exact rfl
    | cons head tail ih =>
        rw [compareNumbers_nil_cons]
        exact compares_then ((compare_iff 0 head).mp rfl) ih
  induction left generalizing right with
  | nil => exact hnil right
  | cons head tail ih =>
      cases right with
      | nil =>
          rw [← swap_compareNumbers, Ordering.compares_swap]
          exact hnil (head :: tail)
      | cons other others => exact compares_then ((compare_iff head other).mp rfl) (ih others)

/-! ## Comparing versions -/

/-- The number in a place of a version; zero if the place is not written. -/
def numberAt (version : Version) : Nat → Nat :=
  padded version.numbers

variable {left right version : Version} {text : String}

theorem numberAt_zero : zero.numberAt = fun _ => 0 :=
  padded_cons_eq_nil_iff.mpr ⟨rfl, rfl⟩

theorem compare_eq (left right : Version) :
    compare left right = compare (toLex left.numberAt) (toLex right.numberAt) :=
  ((compare_iff _ _).mpr (compareNumbers_compares left.numbers right.numbers)).symm

instance : Std.TransOrd Version where
  eq_swap {left right} := (swap_compare right left).symm
  isLE_trans {first second third} := by
    rw [compare_eq, compare_eq, compare_eq]
    exact Std.TransOrd.isLE_trans

theorem compare_eq_eq_iff : compare left right = .eq ↔ left.numberAt = right.numberAt := by
  rw [compare_eq, compare_eq_iff_eq, toLex_inj]

theorem beq_iff_significant :
    (left == right) = true ↔ left.significant = right.significant := by
  change (left.significant == right.significant) = true ↔ _
  exact beq_iff_eq

theorem beq_iff : (left == right) = true ↔ left.numberAt = right.numberAt :=
  beq_iff_significant.trans dropTrailingZeros_eq_iff

instance : Std.LawfulBEqOrd Version where
  compare_eq_iff_beq := compare_eq_eq_iff.trans beq_iff.symm

instance : LawfulHashable Version where
  hash_eq left right hsame := by
    simp only [hash, feed, beq_iff_significant.mp hsame]

/-! ## Zeros that are written -/

/-- The numbers that stand between dots, if nothing else does. -/
def writtenNumbers? (body : List Char) : Option (List Nat) :=
  (body.splitOn '.').mapM number?

theorem parse_eq_ok_iff :
    parse text = .ok version ↔ version.text = text ∧
      ∃ body, text.toList = 'v' :: body ∧ writtenNumbers? body = some version.numbers := by
  unfold parse writtenNumbers?
  constructor
  · intro hparse
    split at hparse
    · next body htext =>
      split at hparse
      · next first others hnumbers =>
        cases hparse
        exact ⟨rfl, body, htext, hnumbers⟩
      · cases hparse
    · cases hparse
  · rintro ⟨rfl, body, htext, hnumbers⟩
    obtain ⟨text, numbers, hne⟩ := version
    obtain ⟨first, others, rfl⟩ := List.exists_cons_of_ne_nil hne
    simp only [htext, hnumbers]

theorem writtenNumbers?_append_dot {start rest : List Char} {numbers : List Nat} :
    writtenNumbers? (start ++ '.' :: rest) = some numbers ↔
      ∃ before after, writtenNumbers? start = some before ∧
        writtenNumbers? rest = some after ∧ before ++ after = numbers := by
  simp [writtenNumbers?, List.splitOn_append_cons_self, List.mapM_append,
    Option.bind_eq_some_iff]

/-- A leading zero does not change the value of a number. -/
theorem number?_zero_cons {digits : List Char} {number : Nat}
    (hnumber : number? digits = some number) : number? ('0' :: digits) = some number := by
  have hvalue : digitsValue ('0' :: digits) = digitsValue digits := rfl
  unfold number? at hnumber ⊢
  rw [hvalue]
  split at hnumber
  · next hdigits =>
    have hall : digits.all Char.isDigit = true := (Bool.and_eq_true_iff.mp hdigits).2
    rwa [if_pos (by simpa using hall)]
  · cases hnumber

theorem writtenNumbers?_zero_cons {body : List Char} {numbers : List Nat}
    (hnumbers : writtenNumbers? body = some numbers) :
    writtenNumbers? ('0' :: body) = some numbers := by
  obtain ⟨first, others, hsplit⟩ := List.exists_cons_of_ne_nil (List.splitOn_ne_nil '.' body)
  have hzero : ('0' :: body).splitOn '.' = ('0' :: first) :: others := by
    rw [List.splitOn_cons_eq_if_modifyHead, if_neg (by decide), hsplit, List.modifyHead_cons]
  simp only [writtenNumbers?, hsplit, hzero, List.mapM_cons, Option.bind_eq_bind,
    Option.bind_eq_some_iff] at hnumbers ⊢
  obtain ⟨number, hnumber, hrest⟩ := hnumbers
  exact ⟨number, number?_zero_cons hnumber, hrest⟩

theorem exists_of_writtenNumbers? {body : List Char} {numbers : List Nat}
    (htext : text.toList = 'v' :: body) (hnumbers : writtenNumbers? body = some numbers) :
    ∃ version, parse text = .ok version ∧ version.numbers = numbers := by
  have hne : numbers ≠ [] := by
    rintro rfl
    obtain ⟨first, others, hsplit⟩ := List.exists_cons_of_ne_nil (List.splitOn_ne_nil '.' body)
    simp [writtenNumbers?, hsplit, Option.bind_eq_some_iff] at hnumbers
  exact ⟨⟨text, numbers, hne⟩, parse_eq_ok_iff.mpr ⟨rfl, body, htext, hnumbers⟩, rfl⟩

/-- One more number, zero, makes no other version. -/
theorem parse_append_zero (hparse : parse text = .ok version) :
    ∃ longer, parse (text ++ ".0") = .ok longer ∧ (longer == version) = true := by
  obtain ⟨-, body, htext, hnumbers⟩ := parse_eq_ok_iff.mp hparse
  have hlonger : (text ++ ".0").toList = 'v' :: (body ++ '.' :: ['0']) := by simp [htext]
  have hwritten : writtenNumbers? (body ++ '.' :: ['0']) = some (version.numbers ++ [0]) :=
    writtenNumbers?_append_dot.mpr ⟨_, [0], hnumbers, rfl, rfl⟩
  obtain ⟨longer, hok, hlong⟩ := exists_of_writtenNumbers? hlonger hwritten
  refine ⟨longer, hok, beq_iff.mpr ?_⟩
  rw [numberAt, hlong, padded_concat_zero, numberAt]

/-- A zero in front of a number makes no other version. -/
theorem parse_leading_zero {before after : String}
    (hbefore : before = "v" ∨ ∃ start, before = start ++ ".")
    (hparse : parse (before ++ after) = .ok version) :
    ∃ longer, parse (before ++ "0" ++ after) = .ok longer ∧ (longer == version) = true := by
  obtain ⟨-, body, htext, hnumbers⟩ := parse_eq_ok_iff.mp hparse
  obtain ⟨longer, hlonger, hwritten⟩ : ∃ longer, (before ++ "0" ++ after).toList = 'v' :: longer ∧
      writtenNumbers? longer = some version.numbers := by
    rcases hbefore with rfl | ⟨start, rfl⟩
    · obtain rfl : after.toList = body := by simpa using htext
      exact ⟨'0' :: after.toList, by simp, writtenNumbers?_zero_cons hnumbers⟩
    · cases hstart : start.toList with
      | nil => simp [hstart] at htext
      | cons first rest =>
          obtain ⟨rfl, rfl⟩ : first = 'v' ∧ rest ++ '.' :: after.toList = body := by
            simpa [hstart] using htext
          obtain ⟨front, back, hfront, hback, hboth⟩ := writtenNumbers?_append_dot.mp hnumbers
          exact ⟨rest ++ '.' :: '0' :: after.toList, by simp [hstart],
            writtenNumbers?_append_dot.mpr
              ⟨front, back, hfront, writtenNumbers?_zero_cons hback, hboth⟩⟩
  obtain ⟨padded, hok, hsame⟩ := exists_of_writtenNumbers? hlonger hwritten
  refine ⟨padded, hok, beq_iff.mpr ?_⟩
  rw [numberAt, hsame, numberAt]

/-! ## The order as a whole -/

/-- In the first place where they differ, the first version has the smaller
number. -/
def SmallerAtFirst (left right : Version) : Prop :=
  ∃ place, (∀ earlier < place, left.numberAt earlier = right.numberAt earlier) ∧
    left.numberAt place < right.numberAt place

/-- Two versions compare as their sequences do, and comparing, testing for
equality and hashing tell the same versions apart. -/
structure ComparesAsSequence (left right : Version) : Prop where
  lt_iff : compare left right = .lt ↔ SmallerAtFirst left right
  gt_iff : compare left right = .gt ↔ SmallerAtFirst right left
  eq_iff : compare left right = .eq ↔ ∀ place, left.numberAt place = right.numberAt place
  beq_iff : (left == right) = true ↔ compare left right = .eq
  fed_iff : (left == right) = true ↔
    ∀ {State : Type} (hasher : Hasher State) (state : State),
      left.feed hasher state = right.feed hasher state

/-- The comparison is a total preorder with a least version, and equal versions
can stand for each other in it. -/
structure TotallyPreordered : Prop where
  refl : ∀ version : Version, compare version version = .eq
  antisymm : ∀ first second : Version, (compare first second).isLE = true →
    (compare second first).isLE = true → compare first second = .eq
  trans : ∀ first second third : Version, (compare first second).isLE = true →
    (compare second third).isLE = true → (compare first third).isLE = true
  total : ∀ first second : Version,
    (compare first second).isLE = true ∨ (compare second first).isLE = true
  least : ∀ version : Version, (compare zero version).isLE = true
  alike : ∀ first second : Version, (first == second) = true →
    ∀ other : Version, compare first other = compare second other ∧
      compare other first = compare other second

/-- Zeros behind the last number and in front of any number make no other
version. -/
structure SpellingsAgree : Prop where
  trailing : ∀ text version, parse text = .ok version →
    ∃ longer, parse (text ++ ".0") = .ok longer ∧ (longer == version) = true
  leading : ∀ before after version, (before = "v" ∨ ∃ start, before = start ++ ".") →
    parse (before ++ after) = .ok version →
      ∃ longer, parse (before ++ "0" ++ after) = .ok longer ∧ (longer == version) = true

theorem feed_eq_iff :
    (left == right) = true ↔
      ∀ {State : Type} (hasher : Hasher State) (state : State),
        left.feed hasher state = right.feed hasher state := by
  constructor
  · intro hsame State hasher state
    rw [feed, feed, beq_iff_significant.mp hsame]
  · intro hfed
    -- A hasher may keep the numbers as they are.
    exact beq_iff_significant.mpr (hfed ⟨fun state _ => state, fun _ numbers => numbers⟩ [])

theorem comparesAsSequence (left right : Version) : ComparesAsSequence left right where
  lt_iff := by
    rw [compare_eq, compare_lt_iff_lt]
    exact Iff.rfl
  gt_iff := by
    rw [compare_eq, compare_gt_iff_gt]
    exact Iff.rfl
  eq_iff := compare_eq_eq_iff.trans funext_iff
  beq_iff := beq_iff.trans compare_eq_eq_iff.symm
  fed_iff := feed_eq_iff

theorem totallyPreordered : TotallyPreordered where
  refl _ := Std.ReflOrd.compare_self
  antisymm _ _ := Std.OrientedCmp.isLE_antisymm
  trans _ _ _ := Std.TransOrd.isLE_trans
  total first second := by
    rw [← swap_compare first second]
    cases compare first second <;> decide
  least version := by
    have hnever : ¬ toLex version.numberAt < toLex zero.numberAt := by
      rintro ⟨place, -, hless⟩
      rw [numberAt_zero] at hless
      exact Nat.not_lt_zero _ hless
    rw [compare_eq]
    exact Ordering.isLE_iff_ne_gt.mpr fun hmore => hnever (compare_gt_iff_gt.mp hmore)
  alike first second hsame other := by
    have hnumbers := beq_iff.mp hsame
    simp only [compare_eq, hnumbers, and_self]

/-- Versions compare as the infinite sequences that they stand for, and all
spellings of a sequence are one version. -/
theorem compare_by_sequence :
    (∀ left right, ComparesAsSequence left right) ∧ TotallyPreordered ∧ SpellingsAgree :=
  ⟨comparesAsSequence, totallyPreordered, fun _ _ => parse_append_zero,
    fun _ _ _ => parse_leading_zero⟩

theorem v1_spelled_three_ways :
    ∃ first second third,
      parse "v1" = .ok first ∧ parse "v1.0" = .ok second ∧ parse "v01.0.0" = .ok third ∧
      compare second first = .eq ∧ compare third second = .eq ∧ (third == first) = true ∧
      ∀ {State : Type} (hasher : Hasher State) (state : State),
        third.feed hasher state = first.feed hasher state := by
  obtain ⟨hsequences, horder, hspellings⟩ := compare_by_sequence
  obtain ⟨first, hfirst⟩ : ∃ version, parse "v1" = .ok version := ⟨⟨"v1", [1], by simp⟩, rfl⟩
  obtain ⟨second, hsecond, hsame⟩ := hspellings.trailing "v1" first hfirst
  obtain ⟨longer, hlonger, hlong⟩ := hspellings.trailing "v1.0" second hsecond
  obtain ⟨third, hthird, hthirdSame⟩ := hspellings.leading "v" "1.0.0" longer (.inl rfl) hlonger
  have hsecondFirst := (hsequences second first).beq_iff.mp hsame
  have hthirdSecond : compare third second = .eq :=
    (horder.alike third longer hthirdSame second).1.trans
      ((hsequences longer second).beq_iff.mp hlong)
  have hthirdFirst : (third == first) = true :=
    (hsequences third first).beq_iff.mpr
      ((horder.alike second first hsame third).2.symm.trans hthirdSecond)
  exact ⟨first, second, third, hfirst, hsecond, hthird, hsecondFirst, hthirdSecond, hthirdFirst,
    (hsequences third first).fed_iff.mp hthirdFirst⟩

end Parcels.Version
