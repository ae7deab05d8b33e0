import Mathlib.Data.List.Basic
import Parcels.Proofs.Action
import Parcels.Proofs.Header.Grammar

/-!
# Reading trivia, words and class names

What stands in a text decides how far trivia and words reach: no word starts
with a blank or with a comment.
-/

namespace Parcels.Header

/-! ## Markers -/

theorem UpTo.tail {marker text input rest : List Char} {char : Char}
    (hupTo : UpTo marker (char :: text) (char :: input) rest) :
    UpTo marker text input rest := by
  refine ⟨List.cons_injective hupTo.split, fun earlier later hinput => ?_⟩
  have hfirst := hupTo.first (char :: earlier) later (by rw [hinput]; rfl)
  exact Nat.le_of_succ_le_succ hfirst

theorem UpTo.cons {marker text input rest : List Char} {char : Char}
    (hnone : ¬ marker <+: char :: input) (hupTo : UpTo marker text input rest) :
    UpTo marker (char :: text) (char :: input) rest := by
  refine ⟨by rw [hupTo.split]; rfl, fun earlier later hinput => ?_⟩
  cases earlier with
  | nil => exact absurd ⟨later, hinput.symm⟩ hnone
  | cons first earlier =>
      exact Nat.succ_le_succ (hupTo.first earlier later (List.cons.inj hinput).2)

theorem isPrefixOf?_eq_none_iff {marker input : List Char} :
    marker.isPrefixOf? input = none ↔ ¬ marker <+: input := by
  rw [Option.eq_none_iff_forall_ne_some]
  constructor
  · rintro hnone ⟨after, hafter⟩
    exact hnone after (List.isPrefixOf?_eq_some_iff_append_eq.mpr hafter)
  · intro hnone after hafter
    exact hnone ⟨after, List.isPrefixOf?_eq_some_iff_append_eq.mp hafter⟩

theorem splitAtMarker?_eq_some_iff {marker text input rest : List Char}
    (hmarker : marker ≠ []) :
    splitAtMarker? marker input = some (text, rest) ↔ UpTo marker text input rest := by
  induction input generalizing text with
  | nil =>
      refine iff_of_false (by simp [splitAtMarker?]) fun hupTo => ?_
      have hsplit := hupTo.split
      simp_all
  | cons char input ih =>
      rw [splitAtMarker?]
      cases hprefix : marker.isPrefixOf? (char :: input) with
      | some after =>
          have hinput := List.isPrefixOf?_eq_some_iff_append_eq.mp hprefix
          simp only [Option.some.injEq, Prod.mk.injEq]
          constructor
          · rintro ⟨rfl, rfl⟩
            exact ⟨hinput.symm, fun _ _ _ => Nat.zero_le _⟩
          · intro hupTo
            have hlength := hupTo.first [] after hinput.symm
            obtain rfl : text = [] := List.length_eq_zero_iff.mp (Nat.le_zero.mp hlength)
            exact ⟨rfl, List.append_cancel_left (hinput.trans hupTo.split)⟩
      | none =>
          have hnone := isPrefixOf?_eq_none_iff.mp hprefix
          constructor
          · intro hsplit
            obtain ⟨⟨before, after⟩, hfound, hboth⟩ := Option.map_eq_some_iff.mp hsplit
            cases hboth
            exact (ih.mp hfound).cons hnone
          · intro hupTo
            cases text with
            | nil => exact absurd ⟨rest, hupTo.split.symm⟩ hnone
            | cons first text =>
                obtain rfl : char = first := (List.cons.inj hupTo.split).1
                rw [ih.mpr hupTo.tail]
                rfl

/-- Whatever passes over characters until it finds a marker finds its first
occurrence. -/
theorem eq_of_splitAtMarker? {Result : Type} {marker : List Char}
    {skip found : List Char → Result} {missing : Result}
    (hnil : skip [] = missing) (hfound : ∀ rest, skip (marker ++ rest) = found rest)
    (hother : ∀ char rest, ¬ marker <+: char :: rest → skip (char :: rest) = skip rest)
    (input : List Char) :
    skip input = ((splitAtMarker? marker input).map fun split => found split.2).getD missing := by
  induction input with
  | nil => exact hnil
  | cons char input ih =>
      rw [splitAtMarker?]
      cases hprefix : marker.isPrefixOf? (char :: input) with
      | some after =>
          rw [← List.isPrefixOf?_eq_some_iff_append_eq.mp hprefix]
          exact hfound after
      | none =>
          rw [hother char input (isPrefixOf?_eq_none_iff.mp hprefix), ih, Option.map_map]
          rfl

/-! ## Comments -/

/-- What a line comment leaves. -/
def afterLine (input : List Char) : List Char :=
  input.dropWhile (· != '\n')

theorem comment_line_iff {input rest : List Char} :
    Comment ('/' :: '/' :: input) rest ↔ rest = afterLine input := by
  constructor
  · intro hcomment
    generalize hwhole : '/' :: '/' :: input = whole at hcomment
    cases hcomment with
    | @line text rest honeLine hends =>
        obtain rfl : input = text ++ rest := by simpa using hwhole
        have hall : ∀ char ∈ text, (char != '\n') = true := by
          intro char hchar
          have hne : char ≠ '\n' := fun heq => honeLine (heq ▸ hchar)
          simpa using hne
        rw [afterLine, List.dropWhile_append_of_pos hall]
        rcases hends with rfl | hfeed
        · rfl
        · cases rest with
          | nil => rfl
          | cons char rest =>
              obtain rfl : char = '\n' := by simpa using hfeed
              rfl
    | block => simp at hwhole
  · rintro rfl
    have hsplit := List.takeWhile_append_dropWhile (p := (· != '\n')) (l := input)
    rw [← afterLine] at hsplit
    conv => arg 1; rw [← hsplit]
    refine .line (fun hfeed => ?_) ?_
    · simpa using List.mem_takeWhile_imp hfeed
    · cases hafter : afterLine input with
      | nil => exact .inl rfl
      | cons char rest =>
          have hhead := List.head?_dropWhile_not (· != '\n') input
          rw [← afterLine, hafter] at hhead
          exact .inr (by simpa using hhead)

theorem comment_block_iff {input rest : List Char} :
    Comment ('/' :: '*' :: input) rest ↔
      ∃ text, splitAtMarker? ['*', '/'] input = some (text, rest) := by
  simp only [splitAtMarker?_eq_some_iff (List.cons_ne_nil _ _)]
  constructor
  · intro hcomment
    generalize hwhole : '/' :: '*' :: input = whole at hcomment
    cases hcomment with
    | line => simp at hwhole
    | block hupTo =>
        obtain rfl : input = _ := by simpa using hwhole
        exact ⟨_, hupTo⟩
  · rintro ⟨text, hupTo⟩
    exact .block hupTo

theorem UpTo.length_le {marker text input rest : List Char}
    (hupTo : UpTo marker text input rest) : rest.length ≤ input.length := by
  have hlength := congrArg List.length hupTo.split
  simp only [List.length_append] at hlength
  omega

theorem Comment.length_lt {input rest : List Char} (hcomment : Comment input rest) :
    rest.length < input.length := by
  cases hcomment with
  | line =>
      simp only [List.length_cons, List.length_append]
      omega
  | block hupTo =>
      have hlength := hupTo.length_le
      simp only [List.length_cons]
      omega

/-! ## Trivia -/

theorem skip_lineComment (input : List Char) :
    Trivia.skip .lineComment input = skipTrivia (afterLine input) := by
  induction input with
  | nil => rfl
  | cons char input ih =>
      by_cases hfeed : char = '\n'
      · subst hfeed
        rfl
      · rw [afterLine, List.dropWhile_cons_of_pos (by simpa using hfeed), ← afterLine, ← ih]
        simp [Trivia.skip]

theorem skip_blockComment (opening input : List Char) :
    Trivia.skip (.blockComment opening) input =
      ((splitAtMarker? ['*', '/'] input).map fun split => skipTrivia split.2).getD
        (.error ⟨opening, .unterminatedComment⟩) := by
  refine eq_of_splitAtMarker? rfl (fun _ => rfl) ?_ input
  intro char rest hnone
  have hne : ∀ after, char :: rest ≠ '*' :: '/' :: after := fun after heq =>
    hnone ⟨after, heq.symm⟩
  cases rest <;> simp_all [Trivia.skip]

theorem Comment.shape {input rest : List Char} (hcomment : Comment input rest) :
    ∃ char after, input = '/' :: char :: after ∧ (char = '/' ∨ char = '*') := by
  cases hcomment with
  | line => exact ⟨_, _, rfl, .inl rfl⟩
  | block => exact ⟨_, _, rfl, .inr rfl⟩

theorem Comment.skipTrivia_eq {input rest : List Char} (hcomment : Comment input rest) :
    skipTrivia input = skipTrivia rest := by
  obtain ⟨_, after, rfl, rfl | rfl⟩ := hcomment.shape
  · rw [comment_line_iff.mp hcomment]
    exact skip_lineComment after
  · obtain ⟨text, hsplit⟩ := comment_block_iff.mp hcomment
    have hskip := skip_blockComment ('/' :: '*' :: after) after
    rw [hsplit] at hskip
    exact hskip

theorem skipTrivia_cons {char : Char} {rest : List Char}
    (hline : ∀ after, char = '/' → rest ≠ '/' :: after)
    (hblock : ∀ after, char = '/' → rest ≠ '*' :: after) :
    skipTrivia (char :: rest) =
      if Text.isBlank char then skipTrivia rest else .ok (char :: rest) := by
  simp [skipTrivia, Trivia.skip]

theorem skipTrivia_of_ne_slash {char : Char} (hslash : char ≠ '/') (rest : List Char) :
    skipTrivia (char :: rest) =
      if Text.isBlank char then skipTrivia rest else .ok (char :: rest) :=
  skipTrivia_cons (fun _ heq => absurd heq hslash) fun _ heq => absurd heq hslash

theorem skipTrivia_blank {char : Char} (hblank : Text.isBlank char = true)
    (rest : List Char) : skipTrivia (char :: rest) = skipTrivia rest := by
  have hslash : char ≠ '/' := by
    rintro rfl
    revert hblank
    decide
  rw [skipTrivia_of_ne_slash hslash, if_pos hblank]

theorem Trivia.skipTrivia_eq {input rest : List Char} (htrivia : Trivia input rest) :
    skipTrivia input = skipTrivia rest := by
  induction htrivia with
  | none => rfl
  | blank hblank _ ih => rw [skipTrivia_blank hblank, ih]
  | comment hcomment _ ih => rw [hcomment.skipTrivia_eq, ih]

/-- A token cannot be taken for trivia. -/
theorem skipTrivia_token {char : Char} (hblank : Text.isBlank char = false)
    (hslash : char ≠ '/') (rest : List Char) :
    skipTrivia (char :: rest) = .ok (char :: rest) := by
  rw [skipTrivia_of_ne_slash hslash, hblank]
  rfl

theorem eq_of_skipTrivia {input rest : List Char} (hskip : skipTrivia input = .ok rest)
    (hblank : ∀ char after, input = char :: after → Text.isBlank char = false)
    (hnone : ∀ after, ¬ Comment input after) : rest = input := by
  have hline : ∀ after, input ≠ '/' :: '/' :: after := by
    rintro after rfl
    exact hnone _ (comment_line_iff.mpr rfl)
  by_cases hblock : ∃ after, input = '/' :: '*' :: after
  · obtain ⟨after, rfl⟩ := hblock
    have hmissing : splitAtMarker? ['*', '/'] after = none :=
      Option.eq_none_iff_forall_ne_some.mpr fun split hsplit =>
        hnone split.2 (comment_block_iff.mpr ⟨split.1, hsplit⟩)
    have hunclosed := skip_blockComment ('/' :: '*' :: after) after
    rw [hmissing] at hunclosed
    cases hskip.symm.trans hunclosed
  · cases input with
    | nil =>
        cases hskip
        rfl
    | cons char after =>
        rw [skipTrivia_cons ?_ ?_, hblank char after rfl] at hskip
        · cases hskip
          rfl
        · rintro rest rfl rfl
          exact hline rest rfl
        · rintro rest rfl rfl
          exact hblock ⟨rest, rfl⟩

theorem trivia_of_skipTrivia {input rest : List Char}
    (hskip : skipTrivia input = .ok rest) : Trivia input rest := by
  by_cases hcomment : ∃ after, Comment input after
  · obtain ⟨after, hcomment⟩ := hcomment
    have hlength := hcomment.length_lt
    rw [hcomment.skipTrivia_eq] at hskip
    exact .comment hcomment (trivia_of_skipTrivia hskip)
  · by_cases hblank : ∃ char after, input = char :: after ∧ Text.isBlank char = true
    · obtain ⟨char, after, rfl, hblank⟩ := hblank
      rw [skipTrivia_blank hblank] at hskip
      exact .blank hblank (trivia_of_skipTrivia hskip)
    · obtain rfl := eq_of_skipTrivia hskip
        (fun char after hinput => Bool.eq_false_iff.mpr fun hchar =>
          hblank ⟨char, after, hinput, hchar⟩)
        (fun after hafter => hcomment ⟨after, hafter⟩)
      exact .none
termination_by input.length
decreasing_by all_goals simp_all

/-! ## Words -/

theorem toNat_of_isWordChar {char : Char} (hword : Name.isWordChar char = true) :
    48 ≤ char.toNat ∧ char.toNat ≤ 122 := by
  have hupper : char.isUpper = true → 65 ≤ char.toNat ∧ char.toNat ≤ 90 :=
    fun hchar => of_decide_eq_true hchar
  have hlower : char.isLower = true → 97 ≤ char.toNat ∧ char.toNat ≤ 122 :=
    fun hchar => (Bool.and_eq_true _ _).mp hchar |>.imp of_decide_eq_true of_decide_eq_true
  have hdigit : char.isDigit = true → 48 ≤ char.toNat ∧ char.toNat ≤ 57 :=
    Char.isDigit_iff_toNat.mp
  have hcases : (((char.isUpper || char.isLower) || char.isDigit) || char == '_') = true :=
    hword
  simp only [Bool.or_eq_true, beq_iff_eq] at hcases
  rcases hcases with ((hchar | hchar) | hchar) | rfl
  · have hrange := hupper hchar
    omega
  · have hrange := hlower hchar
    omega
  · have hrange := hdigit hchar
    omega
  · decide

theorem isBlank_of_isWordChar {char : Char} (hword : Name.isWordChar char = true) :
    Text.isBlank char = false := by
  have hrange := toNat_of_isWordChar hword
  simp only [Text.isBlank, Text.blankRanges, List.any_cons, List.any_nil, Bool.or_false,
    Bool.or_eq_false_iff, Bool.and_eq_false_iff, decide_eq_false_iff_not]
  omega

theorem skipTrivia_wordChar {char : Char} (hword : Name.isWordChar char = true)
    (rest : List Char) : skipTrivia (char :: rest) = .ok (char :: rest) := by
  refine skipTrivia_token (isBlank_of_isWordChar hword) ?_ rest
  rintro rfl
  exact absurd hword (by decide)

theorem word_iff {text : String} {input rest : List Char} :
    Word text input rest ↔ word input = (text, rest) ∧ text ≠ "" := by
  constructor
  · rintro ⟨rfl, hnonempty, hchars, hmaximal⟩
    refine ⟨?_, hnonempty⟩
    have hnone : rest.takeWhile Name.isWordChar = [] ∧
        rest.dropWhile Name.isWordChar = rest := by
      cases rest with
      | nil => exact ⟨rfl, rfl⟩
      | cons char rest => simp [hmaximal char rfl]
    rw [word, List.takeWhile_append_of_pos hchars, List.dropWhile_append_of_pos hchars,
      hnone.1, hnone.2, List.append_nil, String.ofList_toList]
  · rintro ⟨hword, hnonempty⟩
    cases hword
    refine ⟨?_, hnonempty, fun char hchar => ?_, fun char hchar => ?_⟩
    · rw [String.toList_ofList, List.takeWhile_append_dropWhile]
    · rw [String.toList_ofList] at hchar
      exact List.mem_takeWhile_imp hchar
    · have hhead := List.head?_dropWhile_not Name.isWordChar input
      rw [hchar] at hhead
      simpa using hhead

theorem Word.starts {text : String} {input rest : List Char} (hword : Word text input rest) :
    ∃ first others, text.toList = first :: others ∧ input = first :: (others ++ rest) ∧
      Name.isWordChar first = true := by
  obtain ⟨hsplit, hnonempty, hchars, _⟩ := hword
  cases htext : text.toList with
  | nil => exact absurd (String.toList_eq_nil_iff.mp htext) hnonempty
  | cons first others =>
      refine ⟨first, others, rfl, by rw [hsplit, htext]; rfl, ?_⟩
      exact hchars first (by simp [htext])

theorem Word.skipTrivia_eq {text : String} {input rest : List Char}
    (hword : Word text input rest) : skipTrivia input = .ok input := by
  obtain ⟨first, others, _, rfl, hfirst⟩ := hword.starts
  exact skipTrivia_wordChar hfirst _

theorem Word.unique {text text' : String} {input rest rest' : List Char}
    (hword : Word text input rest) (hword' : Word text' input rest') :
    text = text' ∧ rest = rest' :=
  Prod.mk.inj ((word_iff.mp hword).1.symm.trans (word_iff.mp hword').1)

theorem Word.length_lt {text : String} {input rest : List Char}
    (hword : Word text input rest) : rest.length < input.length := by
  obtain ⟨first, others, _, rfl, _⟩ := hword.starts
  simp only [List.length_cons, List.length_append]
  omega

theorem identifier_eq_ok_iff {input rest : List Char} {text : String} :
    identifier input = .ok (text, rest) ↔
      ∃ start, Trivia input start ∧ Word text start rest := by
  constructor
  · intro hread
    obtain ⟨start, hskip, hword⟩ := ok_of_bind hread
    refine ⟨start, trivia_of_skipTrivia hskip, word_iff.mpr ?_⟩
    split at hword
    · cases hword
    · next hnonempty =>
      cases hword
      exact ⟨rfl, hnonempty⟩
  · rintro ⟨start, htrivia, hword⟩
    obtain ⟨hread, hnonempty⟩ := word_iff.mp hword
    simp only [identifier, htrivia.skipTrivia_eq, hword.skipTrivia_eq, bind, Except.bind, hread,
      if_neg hnonempty]

/-! ## Class names -/

theorem Word.single {first : Char} (hfirst : Name.isWordChar first = true)
    {rest : List Char} (hrest : ∀ char ∈ rest.head?, Name.isWordChar char = false) :
    Word (String.ofList [first]) (first :: rest) rest := by
  refine ⟨by simp, by simp, by simpa using hfirst, hrest⟩

theorem Word.cons {first : Char} (hfirst : Name.isWordChar first = true) {text : String}
    {input rest : List Char} (hword : Word text input rest) :
    Word (String.ofList [first] ++ text) (first :: input) rest := by
  obtain ⟨rfl, hnonempty, hchars, hmaximal⟩ := hword
  refine ⟨by simp, by simp, ?_, hmaximal⟩
  simpa [hfirst] using hchars

theorem ClassName.cons {first : Char} (hfirst : Name.isWordChar first = true)
    {name : String} {input rest : List Char} (hname : ClassName name input rest) :
    ClassName (String.ofList [first] ++ name) (first :: input) rest := by
  cases hname with
  | word hword => exact .word (hword.cons hfirst)
  | qualified hword hmore =>
      rw [← String.append_assoc, ← String.append_assoc]
      exact .qualified (hword.cons hfirst) hmore

theorem className_of_nameTail {input tail after : List Char}
    (hread : nameTail input = .ok (tail, after)) {first : Char}
    (hfirst : Name.isWordChar first = true) :
    ClassName (String.ofList (first :: tail)) (first :: input) after ∧
      ¬ [':', ':'] <+: after := by
  fun_induction nameTail input generalizing tail first with
  | case1 =>
      cases hread
      exact ⟨.word (.single hfirst (by simp)), by simp⟩
  | case2 => cases hread
  | case3 next rest hnext ih =>
      obtain ⟨⟨further, _⟩, hmore, hpair⟩ := ok_of_bind hread
      cases hpair
      obtain ⟨hname, hnone⟩ := ih hmore hnext
      have hword : Word (String.ofList [first]) (first :: ':' :: ':' :: next :: rest)
          (':' :: ':' :: next :: rest) := .single hfirst (by simp; decide)
      refine ⟨?_, hnone⟩
      convert ClassName.qualified hword hname using 1
      simp [← String.toList_inj]
  | case4 => cases hread
  | case5 char rest hnone hjoin hchar ih =>
      obtain ⟨⟨further, _⟩, hmore, hpair⟩ := ok_of_bind hread
      cases hpair
      obtain ⟨hname, hnone⟩ := ih hmore hchar
      refine ⟨?_, hnone⟩
      convert hname.cons hfirst using 1
      simp
  | case6 char rest hcolons hjoin hchar =>
      cases hread
      refine ⟨.word (.single hfirst (by simpa using hchar)), ?_⟩
      rintro ⟨others, hothers⟩
      obtain ⟨hfirst, hrest⟩ : char = ':' ∧ rest = ':' :: others := by
        simpa [eq_comm] using hothers
      cases others with
      | nil => exact hcolons hfirst hrest
      | cons next others => exact hjoin next others hfirst hrest

theorem nameTail_of_word {run rest : List Char} {found : List Char × List Char}
    (hrun : ∀ char ∈ run, Name.isWordChar char = true) (hrest : nameTail rest = .ok found) :
    nameTail (run ++ rest) = .ok (run ++ found.1, found.2) := by
  induction run with
  | nil => exact hrest
  | cons char run ih =>
      obtain ⟨hchar, hothers⟩ := List.forall_mem_cons.mp hrun
      have hcolon : char ≠ ':' := by
        rintro rfl
        exact absurd hchar (by decide)
      have hmore := ih hothers
      cases hrun' : run ++ rest <;> simp_all [nameTail, bind, Except.bind, pure, Except.pure]

theorem nameTail_of_end {rest : List Char}
    (hmaximal : ∀ char ∈ rest.head?, Name.isWordChar char = false)
    (hnone : ¬ [':', ':'] <+: rest) : nameTail rest = .ok ([], rest) := by
  fun_cases nameTail rest <;> simp_all

theorem ClassName.nameTail_eq {name : String} {start rest : List Char}
    (hname : ClassName name start rest) (hnone : ¬ [':', ':'] <+: rest) :
    ∃ first others tail, start = first :: others ∧ Name.isWordChar first = true ∧
      name = String.ofList (first :: tail) ∧ nameTail others = .ok (tail, rest) := by
  induction hname with
  | word hword =>
      obtain ⟨first, others, htext, rfl, hfirst⟩ := hword.starts
      have hchars : ∀ char ∈ others, Name.isWordChar char = true := fun char hchar =>
        hword.wordChars char (by simp [htext, hchar])
      refine ⟨first, _, others, rfl, hfirst, ?_, ?_⟩
      · rw [← htext, String.ofList_toList]
      · rw [nameTail_of_word hchars (nameTail_of_end hword.maximal hnone), List.append_nil]
  | @qualified text name input further rest hword hmore ih =>
      obtain ⟨first, others, htext, rfl, hfirst⟩ := hword.starts
      obtain ⟨next, moreOthers, tail, rfl, hnext, rfl, htail⟩ := ih hnone
      have hchars : ∀ char ∈ others, Name.isWordChar char = true := fun char hchar =>
        hword.wordChars char (by simp [htext, hchar])
      have hjoined : nameTail (':' :: ':' :: next :: moreOthers) =
          .ok (':' :: ':' :: next :: tail, rest) := by
        simp [nameTail, hnext, htail, bind, Except.bind, pure, Except.pure]
      refine ⟨first, _, others ++ ':' :: ':' :: next :: tail, rfl, hfirst, ?_, ?_⟩
      · rw [← String.toList_inj]
        simp [htext]
      · exact nameTail_of_word hchars hjoined

theorem className_eq_ok_iff {input rest : List Char} {name : String} :
    className input = .ok (name, rest) ↔
      ∃ start, Trivia input start ∧ ClassName name start rest ∧ ¬ [':', ':'] <+: rest := by
  constructor
  · intro hread
    obtain ⟨start, hskip, hname⟩ := ok_of_bind hread
    split at hname
    · cases hname
    · next first others =>
      split at hname
      · next hfirst =>
        obtain ⟨⟨tail, _⟩, htail, hpair⟩ := ok_of_bind hname
        cases hpair
        exact ⟨_, trivia_of_skipTrivia hskip, className_of_nameTail htail hfirst⟩
      · cases hname
  · rintro ⟨start, htrivia, hname, hnone⟩
    obtain ⟨first, others, tail, rfl, hfirst, rfl, htail⟩ := hname.nameTail_eq hnone
    simp [className, htrivia.skipTrivia_eq, skipTrivia_wordChar hfirst, hfirst, htail, bind,
      Except.bind, pure, Except.pure]

end Parcels.Header
