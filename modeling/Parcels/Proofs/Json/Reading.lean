import Mathlib.Data.List.TakeWhile
import Parcels.Proofs.Json.Grammar

/-!
# Reading by the grammar

The readers read exactly what the grammar allows.  A phrase shows where it
ends, so what is read does not depend on what follows it.
-/

namespace Parcels.Json

/-! ## Blanks -/

theorem exists_blanks (input : List Char) :
    ∃ blanks, Blank blanks ∧ input = blanks ++ skipBlanks input := by
  refine ⟨input.takeWhile isBlank, ?_, List.takeWhile_append_dropWhile.symm⟩
  intro char hchar
  exact List.mem_takeWhile_imp hchar

theorem skipBlanks_append {blanks : List Char} (hblank : Blank blanks)
    (input : List Char) : skipBlanks (blanks ++ input) = skipBlanks input := by
  rw [skipBlanks, skipBlanks, List.dropWhile_append_of_pos hblank]

theorem skipBlanks_cons {char : Char} (hchar : isBlank char = false)
    (input : List Char) : skipBlanks (char :: input) = char :: input :=
  List.dropWhile_cons_of_neg (by simp [hchar])

theorem skipBlanks_eq_cons_iff {input rest : List Char} {char : Char} :
    skipBlanks input = char :: rest ↔ isBlank char = false ∧
      ∃ blanks, Blank blanks ∧ input = blanks ++ char :: rest := by
  constructor
  · intro hskip
    obtain ⟨blanks, hblank, hinput⟩ := exists_blanks input
    rw [hskip] at hinput
    refine ⟨?_, blanks, hblank, hinput⟩
    have hhead := List.head?_dropWhile_not isBlank input
    rw [← skipBlanks, hskip] at hhead
    simpa using hhead
  · rintro ⟨hchar, blanks, hblank, rfl⟩
    rw [skipBlanks_append hblank, skipBlanks_cons hchar]

theorem skipBlanks_eq_nil_iff {input : List Char} :
    skipBlanks input = [] ↔ Blank input :=
  List.dropWhile_eq_nil_iff

/-! ## Strings -/

theorem isPlain_iff {char : Char} :
    isPlain char = true ↔ char ≠ '"' ∧ char ≠ '\\' := by
  simp [isPlain]

theorem quoted?_eq_some_iff {input after : List Char} {text : String} :
    quoted? input = some (text, after) ↔
      ∃ written, Quoted text written ∧ input = written ++ after := by
  constructor
  · intro hread
    unfold quoted? at hread
    split at hread
    · next rest =>
      split at hread
      · next hrest =>
        cases hread
        refine ⟨_, .quoted fun char hchar =>
          isPlain_iff.mp (List.mem_takeWhile_imp hchar), ?_⟩
        have hsplit := (List.takeWhile_append_dropWhile (p := isPlain) (l := rest))
        rw [hrest] at hsplit
        simpa using hsplit.symm
      · cases hread
    · cases hread
  · rintro ⟨_, ⟨hplain⟩, rfl⟩
    next characters =>
      have hall : ∀ char ∈ characters, isPlain char = true := fun char hchar =>
        isPlain_iff.mpr (hplain char hchar)
      have hquote : isPlain '"' = false := by decide
      simp [quoted?, List.dropWhile_append_of_pos hall,
        List.takeWhile_append_of_pos hall, hquote]

/-! ## Entries -/

section Entries

variable {Value : Json → List Char → Prop}
variable {value? : List Char → Option (Json × List Char)}

/-- A reader that reads what stands for a value and nothing else. -/
structure Reads (value? : List Char → Option (Json × List Char))
    (Value : Json → List Char → Prop) : Prop where
  eq_some_iff : ∀ input value after, value? input = some (value, after) ↔
    ∃ written, Value value written ∧ input = written ++ after
  starts : ∀ value written, Value value written →
    ∃ first others, written = first :: others ∧ isBlank first = false

theorem Quoted.starts {text : String} {written : List Char}
    (hquoted : Quoted text written) :
    ∃ others, written = '"' :: others := by
  obtain ⟨_⟩ := hquoted
  exact ⟨_, rfl⟩

/-- An entry is read up to the end of its value; the blanks behind it are
skipped afterwards. -/
theorem entryRead_iff (hreads : Reads value? Value) {input rest : List Char}
    {entry : String × Json} {next : Char} :
    (∃ after, entry? value? (skipBlanks input) = some (entry, after) ∧
        skipBlanks after = next :: rest) ↔
      isBlank next = false ∧
        ∃ written, Entry Value entry written ∧ input = written ++ next :: rest := by
  constructor
  · rintro ⟨after, hentry, hnext⟩
    obtain ⟨hnotBlank, blanks, hblank, rfl⟩ := skipBlanks_eq_cons_iff.mp hnext
    refine ⟨hnotBlank, ?_⟩
    obtain ⟨before, hbefore, hinput⟩ := exists_blanks input
    unfold entry? at hentry
    split at hentry
    · cases hentry
    · next key afterKey hkey =>
      split at hentry
      · next afterColon hcolon =>
        split at hentry
        · cases hentry
        · next value _ hvalue =>
          cases hentry
          obtain ⟨written, hquoted, hstart⟩ := quoted?_eq_some_iff.mp hkey
          obtain ⟨_, blanksKey, hblanksKey, rfl⟩ := skipBlanks_eq_cons_iff.mp hcolon
          obtain ⟨blanksValue, hblanksValue, hafterColon⟩ := exists_blanks afterColon
          obtain ⟨phrase, hphrase, hafter⟩ := (hreads.eq_some_iff _ _ _).mp hvalue
          refine ⟨_, .entry hbefore hquoted hblanksKey hblanksValue hphrase hblank, ?_⟩
          rw [hinput, hstart, hafterColon, hafter]
          simp
      · cases hentry
  · rintro ⟨hnotBlank, written, hentry, rfl⟩
    obtain ⟨hbefore, hquoted, hafterKey, hbeforeValue, hvalue, hafter⟩ := hentry
    next key value before quoted afterKey beforeValue phrase after =>
      obtain ⟨others, hothers⟩ := hquoted.starts
      obtain ⟨first, further, hphrase, hfirst⟩ := hreads.starts _ _ hvalue
      have hskip : ∀ tail, skipBlanks (before ++ (quoted ++ tail)) = quoted ++ tail := by
        intro tail
        rw [skipBlanks_append hbefore, hothers]
        exact skipBlanks_cons (by decide) _
      have hskipValue : ∀ tail,
          skipBlanks (beforeValue ++ (phrase ++ tail)) = phrase ++ tail := by
        intro tail
        rw [skipBlanks_append hbeforeValue, hphrase]
        exact skipBlanks_cons hfirst _
      have hkey : ∀ tail, quoted? (quoted ++ tail) = some (key, tail) := fun tail =>
        quoted?_eq_some_iff.mpr ⟨quoted, hquoted, rfl⟩
      have hread : ∀ tail, value? (phrase ++ tail) = some (value, tail) := fun tail =>
        (hreads.eq_some_iff _ _ _).mpr ⟨phrase, hvalue, rfl⟩
      refine ⟨after ++ next :: rest, ?_, ?_⟩
      · simp only [List.append_assoc, List.cons_append, hskip, entry?, hkey,
          skipBlanks_append hafterKey, skipBlanks_cons (show isBlank ':' = false by decide),
          hskipValue, hread]
      · rw [skipBlanks_append hafter, skipBlanks_cons hnotBlank]

/-- What stands in a hash is nothing or one entry, which ends it or is followed
by a comma and what else stands there. -/
theorem inside_iff {entries : List (String × Json)} {written : List Char} :
    Inside Value entries written ↔ entries = [] ∧ Blank written ∨
      ∃ entry first, Entry Value entry first ∧
        (entries = [entry] ∧ written = first ∨
          ∃ more further, Inside Value more further ∧ entries = entry :: more ∧
            written = first ++ ',' :: further) := by
  constructor
  · intro hinside
    cases hinside with
    | empty hblank => exact .inl ⟨rfl, hblank⟩
    | entries hentries =>
        cases hentries with
        | one hentry => exact .inr ⟨_, _, hentry, .inl ⟨rfl, rfl⟩⟩
        | more hentry hfurther =>
            exact .inr ⟨_, _, hentry, .inr ⟨_, _, .entries hfurther, rfl, rfl⟩⟩
    | trailingComma hentries hblank =>
        cases hentries with
        | one hentry =>
            exact .inr ⟨_, _, hentry, .inr ⟨_, _, .empty hblank, rfl, rfl⟩⟩
        | more hentry hfurther =>
            exact .inr ⟨_, _, hentry,
              .inr ⟨_, _, .trailingComma hfurther hblank, rfl, by simp⟩⟩
  · rintro (⟨rfl, hblank⟩ | ⟨entry, first, hentry, ⟨rfl, rfl⟩ |
      ⟨more, further, hinside, rfl, rfl⟩⟩)
    · exact .empty hblank
    · exact .entries (.one hentry)
    · cases hinside with
      | empty hblank => exact .trailingComma (.one hentry) hblank
      | entries hentries => exact .entries (.more hentry hentries)
      | trailingComma hentries hblank =>
          have hmore := Inside.trailingComma (Entries.more hentry hentries) hblank
          simpa using hmore

/-- What one round of the reader comes to. -/
theorem entries?_succ_eq_some_iff {bound : Nat} {input after : List Char}
    {entries : List (String × Json)} :
    entries? value? (bound + 1) input = some (entries, after) ↔
      entries = [] ∧ skipBlanks input = '}' :: after ∨
      ∃ entry afterEntry, entry? value? (skipBlanks input) = some (entry, afterEntry) ∧
        (entries = [entry] ∧ skipBlanks afterEntry = '}' :: after ∨
          ∃ more rest, entries = entry :: more ∧ skipBlanks afterEntry = ',' :: rest ∧
            entries? value? bound rest = some (more, after)) := by
  rw [entries?]
  split
  · next rest hskip =>
    have hnone : entry? value? ('}' :: rest) = none := rfl
    simp [hskip, hnone, eq_comm]
  · next start hstart =>
    have hopen : skipBlanks input ≠ '}' :: after := fun hskip => hstart after hskip
    cases hentry : entry? value? (skipBlanks input) with
    | none => simp [hopen]
    | some found =>
        obtain ⟨entry, afterEntry⟩ := found
        simp only [hopen, and_false, false_or, Option.some.injEq, Prod.mk.injEq]
        split
        · next rest hskip => grind
        · next rest hskip =>
          cases hmore : entries? value? bound rest with
          | none => grind
          | some more => grind
        · next hbrace hcomma => grind

/-- The entries of a hash are read just when the grammar has them. -/
theorem entries?_eq_some_iff (hreads : Reads value? Value) {bound : Nat}
    {input after : List Char} (hbound : input.length ≤ bound)
    {entries : List (String × Json)} :
    entries? value? bound input = some (entries, after) ↔
      ∃ written, Inside Value entries written ∧ input = written ++ '}' :: after := by
  induction bound generalizing input entries with
  | zero =>
      have hinput : input = [] := List.length_eq_zero_iff.mp (Nat.le_zero.mp hbound)
      simp [hinput, entries?]
  | succ bound ih =>
      rw [entries?_succ_eq_some_iff]
      constructor
      · rintro (⟨rfl, hclose⟩ | ⟨entry, afterEntry, hentry, ⟨rfl, hclose⟩ |
          ⟨more, rest, rfl, hcomma, hmore⟩⟩)
        · obtain ⟨_, blanks, hblank, rfl⟩ := skipBlanks_eq_cons_iff.mp hclose
          exact ⟨blanks, .empty hblank, rfl⟩
        · obtain ⟨_, written, hwritten, rfl⟩ :=
            (entryRead_iff hreads).mp ⟨afterEntry, hentry, hclose⟩
          exact ⟨written, .entries (.one hwritten), rfl⟩
        · obtain ⟨_, written, hwritten, rfl⟩ :=
            (entryRead_iff hreads).mp ⟨afterEntry, hentry, hcomma⟩
          simp only [List.length_append, List.length_cons] at hbound
          obtain ⟨further, hfurther, rfl⟩ := (ih (by omega)).mp hmore
          exact ⟨written ++ ',' :: further, inside_iff.mpr
            (.inr ⟨entry, written, hwritten, .inr ⟨more, further, hfurther, rfl, rfl⟩⟩),
            by simp⟩
      · rintro ⟨_, hinside, rfl⟩
        rcases inside_iff.mp hinside with ⟨rfl, hblank⟩ | ⟨entry, written, hwritten,
          ⟨rfl, rfl⟩ | ⟨more, further, hfurther, rfl, rfl⟩⟩
        · exact .inl ⟨rfl, skipBlanks_eq_cons_iff.mpr ⟨by decide, _, hblank, rfl⟩⟩
        · obtain ⟨afterEntry, hentry, hclose⟩ := (entryRead_iff hreads).mpr
            ⟨show isBlank '}' = false by decide, _, hwritten, rfl⟩
          exact .inr ⟨entry, afterEntry, hentry, .inl ⟨rfl, hclose⟩⟩
        · have hsplit : written ++ ',' :: further ++ '}' :: after =
              written ++ ',' :: (further ++ '}' :: after) := by simp
          obtain ⟨afterEntry, hentry, hcomma⟩ := (entryRead_iff hreads).mpr
            ⟨show isBlank ',' = false by decide, written, hwritten, hsplit⟩
          simp only [List.length_append, List.length_cons] at hbound
          have hlength : (further ++ '}' :: after).length ≤ bound := by
            simp only [List.length_append, List.length_cons]
            omega
          exact .inr ⟨entry, afterEntry, hentry, .inr ⟨more, _, rfl, hcomma,
            (ih hlength).mpr ⟨further, hfurther, rfl⟩⟩⟩

section Limited

/-! What stands in a hash whose values are all of one kind. -/

variable {holds : Json → Prop}

theorem entry_and_iff {entry : String × Json} {written : List Char} :
    Entry (fun value phrase => Value value phrase ∧ holds value) entry written ↔
      Entry Value entry written ∧ holds entry.2 := by
  constructor
  · rintro ⟨hbefore, hquoted, hafterKey, hbeforeValue, ⟨hstands, hholds⟩, hafter⟩
    exact ⟨.entry hbefore hquoted hafterKey hbeforeValue hstands hafter, hholds⟩
  · rintro ⟨⟨hbefore, hquoted, hafterKey, hbeforeValue, hstands, hafter⟩, hholds⟩
    exact .entry hbefore hquoted hafterKey hbeforeValue ⟨hstands, hholds⟩ hafter

theorem entries_and_iff {entries : List (String × Json)} {written : List Char} :
    Entries (fun value phrase => Value value phrase ∧ holds value) entries written ↔
      Entries Value entries written ∧ ∀ entry ∈ entries, holds entry.2 := by
  constructor
  · intro hwritten
    induction hwritten with
    | one hentry =>
        obtain ⟨hentry, hholds⟩ := entry_and_iff.mp hentry
        exact ⟨.one hentry, List.forall_mem_singleton.mpr hholds⟩
    | more hentry _ ih =>
        obtain ⟨hentry, hholds⟩ := entry_and_iff.mp hentry
        exact ⟨.more hentry ih.1, List.forall_mem_cons.mpr ⟨hholds, ih.2⟩⟩
  · rintro ⟨hwritten, hall⟩
    induction hwritten with
    | one hentry =>
        exact .one (entry_and_iff.mpr ⟨hentry, hall _ (List.mem_singleton_self _)⟩)
    | more hentry _ ih =>
        obtain ⟨hholds, hrest⟩ := List.forall_mem_cons.mp hall
        exact .more (entry_and_iff.mpr ⟨hentry, hholds⟩) (ih hrest)

theorem inside_and_iff {entries : List (String × Json)} {written : List Char} :
    Inside (fun value phrase => Value value phrase ∧ holds value) entries written ↔
      Inside Value entries written ∧ ∀ entry ∈ entries, holds entry.2 := by
  constructor
  · intro hinside
    cases hinside with
    | empty hblank => exact ⟨.empty hblank, List.forall_mem_nil _⟩
    | entries hwritten =>
        obtain ⟨hwritten, hall⟩ := entries_and_iff.mp hwritten
        exact ⟨.entries hwritten, hall⟩
    | trailingComma hwritten hblank =>
        obtain ⟨hwritten, hall⟩ := entries_and_iff.mp hwritten
        exact ⟨.trailingComma hwritten hblank, hall⟩
  · rintro ⟨hinside, hall⟩
    cases hinside with
    | empty hblank => exact .empty hblank
    | entries hwritten => exact .entries (entries_and_iff.mpr ⟨hwritten, hall⟩)
    | trailingComma hwritten hblank =>
        exact .trailingComma (entries_and_iff.mpr ⟨hwritten, hall⟩) hblank

end Limited

end Entries

/-! ## Values -/

theorem nestingWithin_le_iff {entries : List (String × Json)} {depth : Nat} :
    nestingWithin entries ≤ depth ↔ ∀ entry ∈ entries, entry.2.nesting ≤ depth := by
  induction entries with
  | nil => simp [nestingWithin]
  | cons entry rest ih =>
      rw [nestingWithin, Nat.max_le, ih, List.forall_mem_cons]

/-- The text stands for the value, and at most `depth` hashes nest in it. -/
def PhraseWithin (depth : Nat) (value : Json) (written : List Char) : Prop :=
  Phrase value written ∧ value.nesting ≤ depth

theorem phraseWithin_hash_iff {depth : Nat} {entries : List (String × Json)}
    {written : List Char} :
    PhraseWithin (depth + 1) (.hash entries) ('{' :: written ++ ['}']) ↔
      Inside (PhraseWithin depth) entries written := by
  rw [PhraseWithin, nesting, Nat.add_le_add_iff_right, nestingWithin_le_iff]
  have hlimited : Inside (PhraseWithin depth) entries written ↔
      Inside Phrase entries written ∧ ∀ entry ∈ entries, entry.2.nesting ≤ depth :=
    inside_and_iff
  rw [hlimited]
  refine and_congr_left fun _ => ?_
  constructor
  · intro hphrase
    generalize htext : '{' :: written ++ ['}'] = text at hphrase
    cases hphrase with
    | hash hinside =>
        obtain rfl : written = _ := by simpa using htext
        exact hinside
  · exact .hash

theorem Phrase.starts {value : Json} {written : List Char}
    (hphrase : Phrase value written) :
    ∃ first others, written = first :: others ∧ isBlank first = false := by
  cases hphrase with
  | null => exact ⟨_, _, rfl, by decide⟩
  | booleanTrue => exact ⟨_, _, rfl, by decide⟩
  | booleanFalse => exact ⟨_, _, rfl, by decide⟩
  | string hquoted =>
      obtain ⟨others, rfl⟩ := hquoted.starts
      exact ⟨_, _, rfl, by decide⟩
  | hash => exact ⟨_, _, rfl, by decide⟩

theorem value?_quote (depth : Nat) (input : List Char) :
    value? depth ('"' :: input) = (quoted? ('"' :: input)).map fun found =>
      (.string found.1, found.2) := by
  cases hquoted : quoted? ('"' :: input) with
  | none => cases depth <;> simp [value?, hquoted]
  | some found => cases depth <;> simp [value?, hquoted]

theorem value?_eq_some_iff_of_deeper {depth : Nat}
    (hdeeper : ∀ inner, depth = inner + 1 → Reads (value? inner) (PhraseWithin inner))
    {input after : List Char} {value : Json} :
    value? depth input = some (value, after) ↔
      ∃ written, PhraseWithin depth value written ∧ input = written ++ after := by
  constructor
  · intro hread
    unfold value? at hread
    split at hread
    · cases hread
      exact ⟨_, ⟨.null, Nat.zero_le _⟩, rfl⟩
    · cases hread
      exact ⟨_, ⟨.booleanTrue, Nat.zero_le _⟩, rfl⟩
    · cases hread
      exact ⟨_, ⟨.booleanFalse, Nat.zero_le _⟩, rfl⟩
    · next inner rest =>
      split at hread
      · cases hread
      · next entries _ hentries =>
        cases hread
        obtain ⟨written, hinside, rfl⟩ :=
          (entries?_eq_some_iff (hdeeper inner rfl) (Nat.le_refl _)).mp hentries
        exact ⟨_, phraseWithin_hash_iff.mpr hinside, by simp⟩
    · split at hread
      · cases hread
      · next text _ htext =>
        cases hread
        obtain ⟨written, hquoted, rfl⟩ := quoted?_eq_some_iff.mp htext
        exact ⟨written, ⟨.string hquoted, Nat.zero_le _⟩, rfl⟩
  · rintro ⟨written, hphrase, rfl⟩
    have hnesting := hphrase.2
    cases hphrase.1 with
    | null => cases depth <;> rfl
    | booleanTrue => cases depth <;> rfl
    | booleanFalse => cases depth <;> rfl
    | string hquoted =>
        obtain ⟨others, rfl⟩ := hquoted.starts
        rw [List.cons_append, value?_quote, ← List.cons_append,
          quoted?_eq_some_iff.mpr ⟨_, hquoted, rfl⟩]
        rfl
    | @hash entries inside _ =>
        cases depth with
        | zero => simp [nesting] at hnesting
        | succ inner =>
            have hentries := (entries?_eq_some_iff (hdeeper inner rfl)
              (Nat.le_refl (inside ++ '}' :: after).length)).mpr
                ⟨inside, phraseWithin_hash_iff.mp hphrase, rfl⟩
            have htext : '{' :: inside ++ ['}'] ++ after =
                '{' :: (inside ++ '}' :: after) := by simp
            rw [htext, value?, hentries]

/-- A value is read just when a phrase for it stands there. -/
theorem reads_value? (depth : Nat) : Reads (value? depth) (PhraseWithin depth) := by
  refine ⟨fun input value after => ?_, fun _ _ hphrase => hphrase.1.starts⟩
  induction depth generalizing input value after with
  | zero => exact value?_eq_some_iff_of_deeper fun inner hinner => by cases hinner
  | succ depth ih =>
      apply value?_eq_some_iff_of_deeper
      rintro inner hinner
      cases hinner
      exact ⟨ih, fun _ _ hphrase => hphrase.1.starts⟩

/-- A text is parsed just when it is a document. -/
theorem parse?_eq_some_iff {text : String} {value : Json} :
    parse? text = some value ↔ Document text.toList value := by
  have hreads := (reads_value? maxDepth).eq_some_iff
  constructor
  · intro hparse
    unfold parse? at hparse
    split at hparse
    · cases hparse
    · next _ rest hvalue =>
      split at hparse
      · next hempty =>
        cases hparse
        obtain ⟨before, hbefore, htext⟩ := exists_blanks text.toList
        obtain ⟨phrase, ⟨hphrase, hnesting⟩, hstart⟩ := (hreads _ _ _).mp hvalue
        have hafter : Blank rest :=
          skipBlanks_eq_nil_iff.mp (List.isEmpty_iff.mp hempty)
        refine ⟨before, phrase, rest, ?_, hbefore, hphrase, hafter, hnesting⟩
        rw [List.append_assoc, ← hstart]
        exact htext
      · cases hparse
  · rintro ⟨before, phrase, after, htext, hbefore, hphrase, hafter, hnesting⟩
    obtain ⟨first, others, hfirst, hnotBlank⟩ := hphrase.starts
    have hstart : skipBlanks text.toList = phrase ++ after := by
      rw [htext, List.append_assoc, skipBlanks_append hbefore, hfirst]
      exact skipBlanks_cons hnotBlank _
    have hvalue := (hreads _ value after).mpr ⟨phrase, ⟨hphrase, hnesting⟩, rfl⟩
    have hend : skipBlanks after = [] := skipBlanks_eq_nil_iff.mpr hafter
    simp [parse?, hstart, hvalue, hend]

end Parcels.Json
