import Mathlib.Data.List.Forall2
import Mathlib.Data.List.Induction
import Mathlib.Data.Nat.Digits.Defs
import Parcels.Proofs.Error
import Parcels.Proofs.Version.Order

/-!
# Which texts are versions

A version is spelled `v` and then numbers with dots in between.  A number is a
run of digits that stands for less than 2^32 in base ten, however long it is.
-/

namespace Parcels.Version

/-! ## Numbers -/

def digitOf (char : Char) : Nat :=
  char.toNat - '0'.toNat

/-- A number of a version and a way to write it. -/
structure Denotes (run : String) (number : Nat) : Prop where
  nonempty : run ≠ ""
  digits : ∀ char ∈ run.toList, '0' ≤ char ∧ char ≤ '9'
  /-- The last digit counts least. -/
  value : number = Nat.ofDigits 10 (run.toList.reverse.map digitOf)
  small : number < 2 ^ 32

theorem digitsValue_eq_ofDigits (digits : List Char) :
    digitsValue digits = Nat.ofDigits 10 (digits.reverse.map digitOf) := by
  induction digits using List.reverseRecOn with
  | nil => rfl
  | append_singleton digits digit ih =>
      have hlast : digitsValue (digits ++ [digit]) = 10 * digitsValue digits + digitOf digit :=
        List.foldl_concat _ _ _ _
      rw [hlast, ih, List.reverse_concat, List.map_cons, Nat.ofDigits_cons, Nat.add_comm]

theorem isDigit_iff {char : Char} : char.isDigit = true ↔ '0' ≤ char ∧ char ≤ '9' :=
  Char.isDigit_iff_toNat

theorem number?_eq_some_iff {run : String} {number : Nat} :
    number? run.toList = some number ↔ Denotes run number := by
  have hdigits : (!run.toList.isEmpty && run.toList.all Char.isDigit) = true ↔
      run ≠ "" ∧ ∀ char ∈ run.toList, '0' ≤ char ∧ char ≤ '9' := by
    simp [isDigit_iff]
  have hsize : UInt32.size = 2 ^ 32 := rfl
  rw [number?, digitsValue_eq_ofDigits, hsize]
  constructor
  · intro hnumber
    split at hnumber
    · next hrun =>
      obtain ⟨hnonempty, hall⟩ := hdigits.mp hrun
      split at hnumber
      · next hsmall =>
        cases hnumber
        exact ⟨hnonempty, hall, rfl, hsmall⟩
      · cases hnumber
    · cases hnumber
  · rintro ⟨hnonempty, hall, rfl, hsmall⟩
    rw [if_pos (hdigits.mpr ⟨hnonempty, hall⟩), if_pos hsmall]

/-! ## Numbers between dots -/

/-- `v` and one or more numbers with dots in between. -/
def Spells (text : String) (numbers : List Nat) : Prop :=
  ∃ runs : List String, runs ≠ [] ∧ text = "v" ++ ".".intercalate runs ∧
    List.Forall₂ Denotes runs numbers

theorem Denotes.dotless {run : String} {number : Nat} (hdenotes : Denotes run number) :
    '.' ∉ run.toList := fun hdot =>
  absurd (hdenotes.digits '.' hdot).1 (by decide)

theorem mapM_number?_eq_some_iff {runs : List String} {numbers : List Nat} :
    (runs.map String.toList).mapM number? = some numbers ↔ List.Forall₂ Denotes runs numbers := by
  induction runs generalizing numbers with
  | nil => simp [eq_comm]
  | cons run runs ih =>
      cases numbers with
      | nil => simp [Option.bind_eq_some_iff]
      | cons number numbers =>
          rw [List.forall₂_cons, ← number?_eq_some_iff, ← ih]
          simp [Option.bind_eq_some_iff]

theorem dotless_of_denotes {runs : List String} {numbers : List Nat}
    (hruns : List.Forall₂ Denotes runs numbers) :
    ∀ chars ∈ runs.map String.toList, '.' ∉ chars := by
  induction hruns with
  | nil => simp
  | cons hfirst _ ih =>
      rw [List.map_cons, List.forall_mem_cons]
      exact ⟨hfirst.dotless, ih⟩

theorem writtenNumbers?_intercalate {runs : List String} {numbers : List Nat}
    (hnonempty : runs ≠ []) (hruns : List.Forall₂ Denotes runs numbers) :
    writtenNumbers? (".".intercalate runs).toList = some numbers := by
  have hdot : ".".toList = ['.'] := rfl
  have hsplit : (".".intercalate runs).toList.splitOn '.' = runs.map String.toList := by
    rw [String.toList_intercalate, hdot]
    exact List.splitOn_intercalate '.' (dotless_of_denotes hruns) (by simpa using hnonempty)
  rw [writtenNumbers?, hsplit]
  exact mapM_number?_eq_some_iff.mpr hruns

/-- What is read is spelled by the runs between the dots. -/
theorem spells_of_writtenNumbers? {text : String} {body : List Char} {numbers : List Nat}
    (htext : text.toList = 'v' :: body) (hnumbers : writtenNumbers? body = some numbers) :
    Spells text numbers := by
  let runs := (body.splitOn '.').map String.ofList
  have hchars : runs.map String.toList = body.splitOn '.' := by
    simp [runs, Function.comp_def]
  have hbody : (".".intercalate runs).toList = body := by
    rw [String.toList_intercalate, hchars]
    exact List.intercalate_splitOn '.'
  refine ⟨runs, ?_, ?_, ?_⟩
  · simp [runs, List.splitOn_ne_nil]
  · apply String.toList_injective
    rw [htext, String.toList_append, hbody]
    rfl
  · rw [writtenNumbers?, ← hchars] at hnumbers
    exact mapM_number?_eq_some_iff.mp hnumbers

theorem parse_ok_iff_spells {text : String} {version : Version} :
    parse text = .ok version ↔ version.text = text ∧ Spells text version.numbers := by
  rw [parse_eq_ok_iff]
  refine and_congr_right fun _ => ⟨?_, ?_⟩
  · rintro ⟨body, htext, hnumbers⟩
    exact spells_of_writtenNumbers? htext hnumbers
  · rintro ⟨runs, hnonempty, rfl, hruns⟩
    exact ⟨(".".intercalate runs).toList, by simp, writtenNumbers?_intercalate hnonempty hruns⟩

/-! ## Parsing -/

theorem parse_eq_error {text : String} {fault : Malformed}
    (hparse : parse text = .error fault) : fault = .version text := by
  unfold parse at hparse
  split at hparse
  · split at hparse
    · cases hparse
    · exact (Except.error.inj hparse).symm
  · exact (Except.error.inj hparse).symm

theorem getElem?_numbers_zero (version : Version) :
    version.numbers[0]? = some version.major := by
  rw [major, ← List.head?_eq_getElem?, List.head?_eq_some_head]

/-- Just the texts that spell numbers are versions.  A version has the numbers
that its text spells, a first one at least, and keeps the text; what is refused
is quoted. -/
theorem parse_reads_spellings (text : String) :
    (∀ numbers, Spells text numbers ↔
      ∃ version, parse text = .ok version ∧ version.numbers = numbers) ∧
    (∀ version, parse text = .ok version →
      version.text = text ∧ version.numbers[0]? = some version.major) ∧
    ∀ fault, parse text = .error fault → Quotes fault.message text := by
  refine ⟨fun numbers => ⟨?_, ?_⟩, ?_, ?_⟩
  · intro hspells
    have hne : numbers ≠ [] := by
      rintro rfl
      obtain ⟨runs, hnonempty, -, hruns⟩ := hspells
      exact hnonempty (List.forall₂_nil_right_iff.mp hruns)
    exact ⟨⟨text, numbers, hne⟩, parse_ok_iff_spells.mpr ⟨rfl, hspells⟩, rfl⟩
  · rintro ⟨version, hparse, rfl⟩
    exact (parse_ok_iff_spells.mp hparse).2
  · intro version hparse
    exact ⟨(parse_ok_iff_spells.mp hparse).1, getElem?_numbers_zero version⟩
  · intro fault hparse
    rw [parse_eq_error hparse]
    exact Malformed.message_quotes (.version text)

theorem long_zeros_read :
    parse "v0000000000004294967295.010" =
        .ok ⟨"v0000000000004294967295.010", [4294967295, 10], by simp⟩ ∧
      Spells "v0000000000004294967295.010" [4294967295, 10] ∧
      ∃ fault, parse "v4294967296" = .error fault ∧ Quotes fault.message "v4294967296" := by
  have hread : parse "v0000000000004294967295.010" =
      .ok ⟨"v0000000000004294967295.010", [4294967295, 10], by simp⟩ := by decide
  have hrefused : parse "v4294967296" = .error (.version "v4294967296") := by decide
  obtain ⟨hspells, -, -⟩ := parse_reads_spellings "v0000000000004294967295.010"
  obtain ⟨-, -, hquotes⟩ := parse_reads_spellings "v4294967296"
  exact ⟨hread, (hspells _).mpr ⟨_, hread, rfl⟩, _, hrefused, hquotes _ hrefused⟩

end Parcels.Version
