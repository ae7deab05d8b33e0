import Parcels.Proofs.Header.Words

/-!
# Reading class headers

Modifiers come each at most once before the word `class`, and a nickname and a
parent each at most once before the body.  The scanner keeps what has been seen
and refuses it a second time.
-/

namespace Parcels.Header

/-! ## Modifiers -/

theorem ofWord?_word (modifier : Modifier) :
    Modifier.ofWord? modifier.word = some modifier := by
  cases modifier <;> decide

theorem word_of_ofWord? {word : String} {modifier : Modifier}
    (hword : Modifier.ofWord? word = some modifier) : modifier.word = word := by
  simpa using List.find?_some hword

theorem ModifierWords.starts {modifiers : List Modifier} {input rest : List Char}
    (hwords : ModifierWords modifiers input rest) :
    ∃ text afterWord, Word text input afterWord := by
  cases hwords with
  | classWord hword => exact ⟨_, _, hword⟩
  | modifier hword => exact ⟨_, _, hword⟩

/-- The first word decides between the end of the modifiers and one of them. -/
theorem modifierWords_iff {modifiers : List Modifier} {first : String}
    {input afterFirst rest : List Char} (hfirst : Word first input afterFirst) :
    ModifierWords modifiers input rest ↔
      modifiers = [] ∧ first = "class" ∧ rest = afterFirst ∨
      ∃ modifier more start, modifiers = modifier :: more ∧ first = modifier.word ∧
        Trivia afterFirst start ∧ ModifierWords more start rest := by
  constructor
  · intro hwords
    cases hwords with
    | classWord hword =>
        obtain ⟨rfl, rfl⟩ := hword.unique hfirst
        exact .inl ⟨rfl, rfl, rfl⟩
    | modifier hword htrivia hfurther =>
        obtain ⟨rfl, rfl⟩ := hword.unique hfirst
        exact .inr ⟨_, _, _, rfl, rfl, htrivia, hfurther⟩
  · rintro (⟨rfl, rfl, rfl⟩ | ⟨modifier, more, start, rfl, rfl, htrivia, hmore⟩)
    · exact .classWord hfirst
    · exact .modifier hfirst htrivia hmore

/-- Modifiers are read in any order, each at most once. -/
theorem readModifiers_eq_ok_iff {seen result : Modifiers} {first : String}
    {input afterFirst rest : List Char} (hfirst : Word first input afterFirst) :
    readModifiers seen first afterFirst = .ok (result, rest) ↔
      ∃ modifiers, ModifierWords modifiers input rest ∧ modifiers.Nodup ∧
        (∀ modifier ∈ modifiers, seen.contains modifier = false) ∧
        result = modifiers.foldl Modifiers.insert seen := by
  fun_induction readModifiers seen first afterFirst generalizing input with
  | case1 seen afterFirst hnone =>
      constructor
      · intro hread
        cases hread
        exact ⟨[], .classWord hfirst, .nil, by simp, rfl⟩
      · rintro ⟨modifiers, hwords, -, -, rfl⟩
        obtain ⟨rfl, -, rfl⟩ | ⟨modifier, _, _, -, hword, -⟩ := (modifierWords_iff hfirst).mp hwords
        · rfl
        · rw [hword, ofWord?_word] at hnone
          cases hnone
  | case2 seen first afterFirst hnone hclass =>
      refine iff_of_false (by simp) ?_
      rintro ⟨modifiers, hwords, -⟩
      obtain ⟨-, hword, -⟩ | ⟨modifier, _, _, -, hword, -⟩ := (modifierWords_iff hfirst).mp hwords
      · exact hclass hword
      · rw [hword, ofWord?_word] at hnone
        cases hnone
  | case3 seen first afterFirst modifier hmodifier hseen =>
      refine iff_of_false (by simp) ?_
      rintro ⟨modifiers, hwords, -, hunseen, -⟩
      obtain ⟨-, rfl, -⟩ | ⟨_, _, _, rfl, rfl, -⟩ := (modifierWords_iff hfirst).mp hwords
      · cases hmodifier
      · rw [ofWord?_word] at hmodifier
        cases hmodifier
        simp [hseen] at hunseen
  | case4 seen first afterFirst modifier hmodifier hseen _ ih =>
      rw [← word_of_ofWord? hmodifier] at hfirst
      constructor
      · intro hread
        obtain ⟨⟨next, afterNext⟩, hnext, hmore⟩ := ok_of_bind hread
        obtain ⟨start, htrivia, hnext⟩ := identifier_eq_ok_iff.mp hnext
        obtain ⟨more, hwords, hnodup, hunseen, rfl⟩ := (ih next afterNext hnext).mp hmore
        simp only [Modifiers.contains_insert, Bool.or_eq_false_iff, beq_eq_false_iff_ne] at hunseen
        refine ⟨modifier :: more, .modifier hfirst htrivia hwords, ?_, ?_, rfl⟩
        · exact List.nodup_cons.mpr ⟨fun hmem => (hunseen modifier hmem).1 rfl, hnodup⟩
        · refine List.forall_mem_cons.mpr ⟨by simpa using hseen, fun other hother => ?_⟩
          exact (hunseen other hother).2
      · rintro ⟨modifiers, hwords, hnodup, hunseen, rfl⟩
        obtain ⟨-, hclass, -⟩ | ⟨modifier', more, start, rfl, hword, htrivia, hmore⟩ :=
          (modifierWords_iff hfirst).mp hwords
        · rw [← word_of_ofWord? hmodifier, hclass] at hmodifier
          cases hmodifier
        · obtain rfl : modifier = modifier' := by
            have hsame := ofWord?_word modifier
            rw [hword, ofWord?_word] at hsame
            exact (Option.some.inj hsame).symm
          obtain ⟨next, afterNext, hnext⟩ := hmore.starts
          obtain ⟨hnew, hnodup⟩ := List.nodup_cons.mp hnodup
          rw [identifier_eq_ok_iff.mpr ⟨start, htrivia, hnext⟩]
          refine (ih next afterNext hnext).mpr ⟨more, hmore, hnodup, fun other hother => ?_, rfl⟩
          have hne : other ≠ modifier := fun heq => hnew (heq ▸ hother)
          simp [Modifiers.contains_insert, hne,
            hunseen other (List.mem_cons_of_mem _ hother)]

/-! ## Clauses -/

/-- Clauses start with a word or end with a brace, so nothing before them can
be part of a class name. -/
theorem Clauses.starts {nickname parent : Option String} {input body : List Char}
    (hclauses : Clauses nickname parent input body) :
    ∃ char rest, skipTrivia input = .ok (char :: rest) ∧ char ≠ ':' := by
  have hword : ∀ {text start afterWord}, Trivia input start → Word text start afterWord →
      ∃ char rest, skipTrivia input = .ok (char :: rest) ∧ char ≠ ':' := by
    intro text start afterWord htrivia hword
    obtain ⟨first, others, -, rfl, hfirst⟩ := hword.starts
    refine ⟨first, _, htrivia.skipTrivia_eq.trans (skipTrivia_wordChar hfirst _), ?_⟩
    rintro rfl
    exact absurd hfirst (by decide)
  cases hclauses with
  | none htrivia =>
      exact ⟨'{', _, htrivia.skipTrivia_eq.trans (skipTrivia_token (by decide) (by decide) _),
        by decide⟩
  | nickname htrivia hnickname => exact hword htrivia hnickname
  | inherits htrivia hinherits => exact hword htrivia hinherits

theorem Clauses.not_colons {nickname parent : Option String} {input body : List Char}
    (hclauses : Clauses nickname parent input body) : ¬ [':', ':'] <+: input := by
  rintro ⟨rest, rfl⟩
  obtain ⟨char, after, hskip, hchar⟩ := hclauses.starts
  rw [List.cons_append, skipTrivia_token (by decide) (by decide)] at hskip
  cases hskip
  exact hchar rfl

/-- The header with what clauses add to it. -/
def withClauses (header : ClassHeader) (nickname parent : Option String) : ClassHeader :=
  { header with
    nickname := header.nickname.or nickname
    parent := header.parent.or parent }

theorem Word.head?_ne_brace {text : String} {input rest : List Char}
    (hword : Word text input rest) : input.head? ≠ some '{' := by
  obtain ⟨first, others, -, rfl, hfirst⟩ := hword.starts
  intro hbrace
  obtain rfl : first = '{' := by simpa using hbrace
  exact absurd hfirst (by decide)

theorem readClauses_nickname {header : ClassHeader} {input start afterWord : List Char}
    (htrivia : Trivia input start) (hword : Word "nickname" start afterWord)
    (hnone : header.nickname = none) :
    readClauses header input = (do
      let (nickname, after) ← identifier afterWord
      readClauses { header with nickname := some nickname } after) := by
  rw [readClauses, htrivia.skipTrivia_eq, hword.skipTrivia_eq]
  simp only [bind, Except.bind, if_neg hword.head?_ne_brace, (word_iff.mp hword).1, hnone,
    Option.isNone_none, and_self, dif_pos]

theorem readClauses_inherits {header : ClassHeader} {input start afterWord : List Char}
    (htrivia : Trivia input start) (hword : Word "inherits" start afterWord)
    (hnone : header.parent = none) :
    readClauses header input = (do
      let (parent, after) ← className afterWord
      readClauses { header with parent := some parent } after) := by
  rw [readClauses, htrivia.skipTrivia_eq, hword.skipTrivia_eq]
  have hclause : ("inherits" : String) ≠ "nickname" := by decide
  simp only [bind, Except.bind, if_neg hword.head?_ne_brace, (word_iff.mp hword).1, hnone,
    Option.isNone_none, hclause, false_and, dite_false, and_self, dite_true]

theorem readClauses_of_clauses {nickname parent : Option String}
    {input body : List Char} (hclauses : Clauses nickname parent input body)
    (header : ClassHeader) (hnickname : header.nickname = none ∨ nickname = none)
    (hparent : header.parent = none ∨ parent = none) :
    readClauses header input = .ok (withClauses header nickname parent, body) := by
  induction hclauses generalizing header with
  | @none input body htrivia =>
      have hbrace : skipTrivia ('{' :: body) = .ok ('{' :: body) :=
        skipTrivia_token (by decide) (by decide) body
      rw [readClauses, htrivia.skipTrivia_eq, hbrace]
      simp [bind, Except.bind, pure, Except.pure, withClauses]
  | @nickname nickname _ _ _ _ _ _ _ htrivia hword htriviaName hwordName hmore ih =>
      have hnone : header.nickname = none := by simpa using hnickname
      rw [readClauses_nickname htrivia hword hnone,
        identifier_eq_ok_iff.mpr ⟨_, htriviaName, hwordName⟩]
      refine (ih { header with nickname := some nickname } (.inr rfl) hparent).trans ?_
      simp [withClauses, hnone]
  | @inherits _ parent _ _ _ _ _ _ htrivia hword htriviaName hname hmore ih =>
      have hnone : header.parent = none := by simpa using hparent
      rw [readClauses_inherits htrivia hword hnone,
        className_eq_ok_iff.mpr ⟨_, htriviaName, hname, hmore.not_colons⟩]
      refine (ih { header with parent := some parent } hnickname (.inr rfl)).trans ?_
      simp [withClauses, hnone]

theorem clauses_of_readClauses {header result : ClassHeader} {input body : List Char}
    (hread : readClauses header input = .ok (result, body)) :
    ∃ nickname parent, Clauses nickname parent input body ∧
      (header.nickname = none ∨ nickname = none) ∧
      (header.parent = none ∨ parent = none) ∧
      result = withClauses header nickname parent := by
  fun_induction readClauses header input with
  | case1 header input ihNickname ihInherits =>
      obtain ⟨start, hskip, hrest⟩ := ok_of_bind hread
      have htrivia := trivia_of_skipTrivia hskip
      split at hrest
      · next hbrace =>
        cases hrest
        obtain ⟨body, rfl⟩ := List.head?_eq_some_iff.mp hbrace
        exact ⟨none, none, .none htrivia, .inr rfl, .inr rfl, by simp [withClauses]⟩
      · split at hrest
        next clause afterWord hword =>
        split at hrest
        · next hclause =>
          obtain ⟨rfl, hnone⟩ := hclause
          obtain ⟨⟨name, afterName⟩, hname, hmore⟩ := ok_of_bind hrest
          obtain ⟨nickname, parent, hclauses, hnickname, hparent, rfl⟩ :=
            ihNickname _ ⟨rfl, hnone⟩ name afterName hmore
          obtain ⟨startName, htriviaName, hwordName⟩ := identifier_eq_ok_iff.mp hname
          obtain rfl : nickname = none := by simpa using hnickname
          have hopen : header.nickname = none := Option.isNone_iff_eq_none.mp hnone
          exact ⟨some name, parent,
            .nickname htrivia (word_iff.mpr ⟨hword, by decide⟩) htriviaName hwordName hclauses,
            .inl hopen, hparent, by simp [withClauses, hopen]⟩
        · split at hrest
          · next hclause =>
            obtain ⟨rfl, hnone⟩ := hclause
            obtain ⟨⟨name, afterName⟩, hname, hmore⟩ := ok_of_bind hrest
            obtain ⟨nickname, parent, hclauses, hnickname, hparent, rfl⟩ :=
              ihInherits _ ⟨rfl, hnone⟩ name afterName hmore
            obtain ⟨startName, htriviaName, hclassName, -⟩ := className_eq_ok_iff.mp hname
            obtain rfl : parent = none := by simpa using hparent
            have hopen : header.parent = none := Option.isNone_iff_eq_none.mp hnone
            exact ⟨nickname, some name,
              .inherits htrivia (word_iff.mpr ⟨hword, by decide⟩) htriviaName hclassName hclauses,
              hnickname, .inl hopen, by simp [withClauses, hopen]⟩
          · split at hrest <;> cases hrest

end Parcels.Header
