import Parcels.Proofs.Header.Joined
import Parcels.Proofs.Header.Scanner.Tracks

/-!
# Scanning words and class headers

Every routine of the scanner does what the reader of the same name does with the
characters that are left.
-/

namespace Parcels.Header.Scanner

open Json.Cursor (bytesFrom)
open Text (bytesOf length_bytesOf takeWhile_bytesOf head?_bytesOf_eq_some_iff)

variable {text : String} {input start rest : List Char}

/-! ## Trivia -/

theorem skipTrivia_trimmed (input : List Char) :
    Header.skipTrivia (input.dropWhile Text.isBlank) = Header.skipTrivia input := by
  induction input with
  | nil => rfl
  | cons char input ih =>
      by_cases hblank : Text.isBlank char = true
      · rw [List.dropWhile_cons_of_pos hblank, ih, skipTrivia_blank hblank]
      · rw [List.dropWhile_cons_of_neg hblank]

/-- Reads a block comment behind its opening. -/
def readBlockComment (inner : List Char) : Except Fault (List Char) :=
  match splitAtMarker? ['*', '/'] inner with
  | some (_, after) => .ok after
  | none => .error ⟨'/' :: '*' :: inner, .unterminatedComment⟩

theorem skipTrivia_blockComment (inner : List Char) :
    Header.skipTrivia ('/' :: '*' :: inner) =
      readBlockComment inner >>= Header.skipTrivia := by
  have hskip := skip_blockComment ('/' :: '*' :: inner) inner
  change Trivia.skip (.blockComment ('/' :: '*' :: inner)) inner = _
  rw [hskip, readBlockComment]
  cases splitAtMarker? ['*', '/'] inner <;> rfl

theorem comment_of_readBlockComment {inner after : List Char}
    (hread : readBlockComment inner = .ok after) : Comment ('/' :: '*' :: inner) after := by
  unfold readBlockComment at hread
  split at hread
  · next comment _ hclosed =>
    cases hread
    exact comment_block_iff.mpr ⟨comment, hclosed⟩
  · cases hread

theorem skipBlockComment_skips (inner : List Char) :
    Skips text (skipBlockComment text) (readBlockComment inner) ('/' :: '*' :: inner) := by
  refine .line (.place fun hsuffix => ?_)
  have hmarks : byteLength ['/', '*'] = 2 ∧ byteLength ['*', '/'] = 2 := ⟨rfl, rfl⟩
  have hstart := place_add ['/', '*'] hsuffix
  have hinner : inner ++ [] <:+ text.toList := by
    rw [List.append_nil]
    exact suffix_of_cons (suffix_of_cons hsuffix)
  rw [hmarks.1] at hstart
  refine .take hinner (by rwa [List.append_nil]) (by simp [cursorAt, byteLength]) ?_
  unfold readBlockComment
  cases hclosed : splitAtMarker? ['*', '/'] inner with
  | none => exact .failAt rfl
  | some found =>
      obtain ⟨comment, after⟩ := found
      have hsplit := ((splitAtMarker?_eq_some_iff (List.cons_ne_nil _ _)).mp hclosed).split
      refine .advanceLast (['/', '*'] ++ comment ++ ['*', '/']) (by simp [hsplit]) ?_ rfl
      simp only [byteLength_append, hmarks]
      omega

/-- What `dropWhile` leaves does not start with what it takes. -/
theorem head_dropWhile (test : Char → Bool) (input : List Char) :
    ∀ char ∈ (input.dropWhile test).head?, test char = false := by
  intro char hchar
  have hhead := List.head?_dropWhile_not test input
  rw [Option.mem_def.mp hchar] at hhead
  simpa using hhead

theorem skipTrivia_of_none (hblank : ∀ char ∈ start.head?, Text.isBlank char = false)
    (hline : ∀ after, start ≠ '/' :: '/' :: after)
    (hblock : ∀ after, start ≠ '/' :: '*' :: after) : Header.skipTrivia start = .ok start := by
  cases start with
  | nil => rfl
  | cons char rest =>
      rw [skipTrivia_cons, hblank char rfl]
      · rfl
      · rintro after rfl rfl
        exact hline after rfl
      · rintro after rfl rfl
        exact hblock after rfl

theorem triviaRound_follows (value : Unit) (input : List Char) :
    Follows text (triviaRound text value) (Header.skipTrivia input)
      (Goes (fun _ => Header.skipTrivia) (fun _ rest => rest) input) input := by
  have hsplit := (List.takeWhile_append_dropWhile (p := Text.isBlank) (l := input)).symm
  have hcount : byteLength input - byteLength (input.dropWhile Text.isBlank) =
      byteLength (input.takeWhile Text.isBlank) := by
    have hlength := congrArg byteLength hsplit
    rw [byteLength_append] at hlength
    omega
  refine .ahead (.advance _ hsplit hcount ?_)
  have hshorter := (List.dropWhile_suffix (l := input) Text.isBlank).length_le
  have hblank := head_dropWhile Text.isBlank input
  rw [← skipTrivia_trimmed]
  generalize input.dropWhile Text.isBlank = trimmed at hshorter hblank
  split
  · next inner =>
    have hcomment : Comment ('/' :: '/' :: inner) (afterLine inner) := comment_line_iff.mpr rfl
    have hline := List.takeWhile_append_dropWhile (p := (· != '\n')) (l := '/' :: '/' :: inner)
    refine .advance _ hline.symm rfl (.pure ⟨hcomment.skipTrivia_eq, ?_⟩)
    exact Nat.lt_of_lt_of_le hcomment.length_lt hshorter
  · next inner =>
    rw [skipTrivia_blockComment]
    refine (skipBlockComment_skips inner).bind fun _ after hread => .pure ⟨rfl, ?_⟩
    exact Nat.lt_of_lt_of_le (comment_of_readBlockComment hread).length_lt hshorter
  · next hline hblock => exact .pure (skipTrivia_of_none hblank hline hblock)

theorem skipTrivia_skips (input : List Char) :
    Skips text (skipTrivia text) (Header.skipTrivia input) input :=
  loop_follows triviaRound_follows () input

/-! ## Words and class names -/

theorem isWordChar_of_le {char : Char} (hlarge : 128 ≤ char.toNat) :
    Name.isWordChar char = false := by
  rw [Bool.eq_false_iff]
  intro hword
  have hrange := toNat_of_isWordChar hword
  omega

theorem word_reads (input : List Char) :
    Reads text (word text) (.ok (Header.word input)) input := by
  have hsplit := (List.takeWhile_append_dropWhile (p := Name.isWordChar) (l := input)).symm
  refine .ahead (.place fun hsuffix => ?_)
  have hlength : ((bytesFrom text (cursorAt text input).place).takeWhile Name.isWordChar).length =
      byteLength (input.takeWhile Name.isWordChar) := by
    rw [bytesFrom_cursorAt hsuffix, takeWhile_bytesOf fun _ => isWordChar_of_le,
      length_bytesOf, byteLength]
  rw [hlength]
  rw [hsplit] at hsuffix
  refine .advance _ hsplit rfl (.take hsuffix (by rw [← hsplit]) ?_ (.pure rfl))
  rw [← place_add _ hsuffix, ← hsplit]

theorem identifier_reads (input : List Char) :
    Reads text (identifier text) (Header.identifier input) input := by
  refine (skipTrivia_skips input).bind fun _ start _ => .line ?_
  refine (word_reads start).given fun found rest hfound => ?_
  rw [hfound]
  split
  · exact .failAt rfl
  · exact .pure rfl

theorem identifier_length_lt {found : String}
    (hread : Header.identifier input = .ok (found, rest)) : rest.length < input.length := by
  obtain ⟨start, htrivia, hword⟩ := identifier_eq_ok_iff.mp hread
  exact Nat.lt_of_lt_of_le hword.length_lt htrivia.length_le

/-- What further components leave, from behind a word on. -/
def components (input : List Char) : Except Fault (List Char) :=
  match input with
  | ':' :: ':' :: rest => (nameTail (':' :: ':' :: rest)).map Prod.snd
  | other => .ok other

theorem nameTail_wordChar {char : Char} (hchar : Name.isWordChar char = true)
    (rest : List Char) :
    nameTail (char :: rest) = (nameTail rest).map fun found => (char :: found.1, found.2) := by
  have hcolon : char ≠ ':' := by
    rintro rfl
    exact absurd hchar (by decide)
  cases hrest : nameTail rest <;> cases rest <;>
    simp_all [nameTail, bind, Except.bind, pure, Except.pure, Except.map]

theorem nameTail_colons {first : Char} (hfirst : Name.isWordChar first = true)
    (rest : List Char) :
    nameTail (':' :: ':' :: first :: rest) =
      (nameTail rest).map fun found => (':' :: ':' :: first :: found.1, found.2) := by
  rw [nameTail, if_pos hfirst]
  cases nameTail rest <;> rfl

theorem nameTail_run {run : List Char} (hrun : ∀ char ∈ run, Name.isWordChar char = true)
    (rest : List Char) :
    nameTail (run ++ rest) = (nameTail rest).map fun found => (run ++ found.1, found.2) := by
  induction run with
  | nil =>
      rw [List.nil_append]
      cases nameTail rest <;> rfl
  | cons char run ih =>
      obtain ⟨hchar, hothers⟩ := List.forall_mem_cons.mp hrun
      rw [List.cons_append, nameTail_wordChar hchar, ih hothers]
      cases nameTail rest <;> rfl

theorem nameTail_split {tail after : List Char} (hread : nameTail input = .ok (tail, after)) :
    input = tail ++ after := by
  fun_induction nameTail input generalizing tail with
  | case1 | case6 =>
      cases hread
      rfl
  | case2 | case4 => cases hread
  | case3 first rest _ ih =>
      obtain ⟨⟨more, _⟩, hmore, hpair⟩ := ok_of_bind hread
      cases hpair
      rw [ih hmore]
      rfl
  | case5 char rest _ _ _ ih =>
      obtain ⟨⟨more, _⟩, hmore, hpair⟩ := ok_of_bind hread
      cases hpair
      rw [ih hmore]
      rfl

theorem word_eq_empty_iff :
    (Header.word input).1 = "" ↔ ∀ char ∈ input.head?, Name.isWordChar char = false := by
  cases input with
  | nil => simp [Header.word]
  | cons char rest => cases hchar : Name.isWordChar char <;> simp [Header.word, hchar]

theorem word_snd_cons {first : Char} (hfirst : Name.isWordChar first = true) (rest : List Char) :
    (Header.word (first :: rest)).2 = (Header.word rest).2 := by
  simp [Header.word, hfirst]

theorem components_eq_nameTail (hmaximal : ∀ char ∈ rest.head?, Name.isWordChar char = false) :
    components rest = (nameTail rest).map Prod.snd := by
  unfold components
  split
  · rfl
  · next hnone =>
    rw [nameTail_of_end hmaximal]
    · rfl
    · rintro ⟨after, rfl⟩
      exact hnone after rfl

/-- The word that is begun is read to its end before further components. -/
theorem map_snd_nameTail (input : List Char) :
    (nameTail input).map Prod.snd = components (Header.word input).2 := by
  have hrun : ∀ char ∈ input.takeWhile Name.isWordChar, Name.isWordChar char = true :=
    fun _ => List.mem_takeWhile_imp
  have hread := nameTail_run hrun (input.dropWhile Name.isWordChar)
  rw [List.takeWhile_append_dropWhile] at hread
  rw [Header.word, components_eq_nameTail (head_dropWhile Name.isWordChar input), hread]
  cases nameTail (input.dropWhile Name.isWordChar) <;> rfl

theorem components_colons (input : List Char) :
    components (':' :: ':' :: input) =
      if (Header.word input).1 = "" then .error ⟨input, .expectedComponent⟩
      else components (Header.word input).2 := by
  cases input with
  | nil => rfl
  | cons first rest =>
      by_cases hfirst : Name.isWordChar first = true
      · rw [if_neg (by simp [word_eq_empty_iff, hfirst]), word_snd_cons hfirst,
          ← map_snd_nameTail, components, nameTail_colons hfirst]
        cases nameTail rest <;> rfl
      · rw [if_pos (by simpa [word_eq_empty_iff] using hfirst), components, nameTail,
          if_neg hfirst]
        rfl

theorem componentRound_follows (value : Unit) (input : List Char) :
    Follows text (componentRound text value) (components input)
      (Goes (fun _ => components) (fun _ rest => rest) input) input := by
  refine .ahead ?_
  split
  · next after =>
    refine .advance [':', ':'] rfl rfl (.line ((word_reads after).given ?_))
    intro found rest hfound
    rw [components_colons, hfound]
    split
    · exact .failAt rfl
    · next hnonempty =>
      have hword : Word found after rest := word_iff.mpr ⟨hfound, hnonempty⟩
      exact .pure ⟨rfl, Nat.lt_of_lt_of_le hword.length_lt (Nat.le_add_right _ 2)⟩
  · next hnone =>
    refine .pure ?_
    unfold components
    split
    · next after => exact absurd rfl (hnone after)
    · rfl

theorem skipTrivia_again (hskip : Header.skipTrivia input = .ok rest) :
    Header.skipTrivia rest = .ok rest := by
  rw [← (trivia_of_skipTrivia hskip).skipTrivia_eq, hskip]

theorem identifier_of_skipTrivia (hskip : Header.skipTrivia start = .ok start) :
    Header.identifier start =
      if (Header.word start).1 = "" then .error ⟨start, .expectedIdentifier⟩
      else .ok (Header.word start) := by
  rw [Header.identifier, hskip]
  rfl

theorem take_before (taken rest : List Char) :
    (taken ++ rest).take ((taken ++ rest).length - rest.length) = taken := by
  rw [List.length_append, Nat.add_sub_cancel, List.take_left]

/-- A class name reaches from its first word to the end of its components. -/
theorem className_eq (hskip : Header.skipTrivia input = .ok start) :
    Header.className input = (do
      let (_, rest) ← Header.identifier start
      let after ← components rest
      return (String.ofList (start.take (start.length - after.length)), after)) := by
  rw [Header.className, hskip, identifier_of_skipTrivia (skipTrivia_again hskip)]
  cases start with
  | nil => rfl
  | cons first more =>
      by_cases hfirst : Name.isWordChar first = true
      · have hword : (Header.word (first :: more)).1 ≠ "" := by
          simp [word_eq_empty_iff, hfirst]
        have hread := map_snd_nameTail more
        rw [if_neg hword]
        change (if Name.isWordChar first = true then _ else _) = _
        rw [if_pos hfirst]
        change _ = components (Header.word (first :: more)).2 >>= _
        rw [word_snd_cons hfirst, ← hread]
        cases hname : nameTail more with
        | error fault => rfl
        | ok found =>
            have htaken : first :: more = (first :: found.1) ++ found.2 := by
              rw [nameTail_split hname]
              rfl
            change _ = Except.ok (String.ofList ((first :: more).take
              ((first :: more).length - found.2.length)), found.2)
            rw [htaken, take_before]
            rfl
      · have hword : (Header.word (first :: more)).1 = "" := by
          simpa [word_eq_empty_iff] using hfirst
        rw [if_pos hword]
        change (if Name.isWordChar first = true then _ else _) = _
        rw [if_neg hfirst]
        rfl

theorem components_suffix {after : List Char} (hread : components rest = .ok after) :
    after <:+ rest := by
  unfold components at hread
  split at hread
  · next more =>
    cases hname : nameTail (':' :: ':' :: more) with
    | error fault =>
        rw [hname] at hread
        cases hread
    | ok found =>
        rw [hname] at hread
        cases hread
        exact ⟨found.1, (nameTail_split hname).symm⟩
  · cases hread
    exact List.suffix_refl _

theorem className_reads (input : List Char) :
    Reads text (className text) (Header.className input) input := by
  refine (skipTrivia_skips input).andThen (fun fault hfault => ?_) fun _ start hskip => ?_
  · rw [Header.className, hfault]
    rfl
  · rw [className_eq hskip]
    refine .place fun hstart => (identifier_reads start).bind fun found rest hfound => ?_
    refine (loop_follows componentRound_follows () rest).bind fun _ after hafter => ?_
    refine .place fun hsuffix => ?_
    have hrest := leavesEnd_identifier (List.suffix_refl start)
    rw [hfound] at hrest
    obtain ⟨taken, rfl⟩ := (components_suffix hafter).trans hrest
    refine .take hstart rfl rfl (.pure ?_)
    rw [take_before]
    rfl

theorem className_length_lt {found : String}
    (hread : Header.className input = .ok (found, rest)) : rest.length < input.length := by
  obtain ⟨start, htrivia, hname, -⟩ := className_eq_ok_iff.mp hread
  exact Nat.lt_of_lt_of_le hname.length_lt htrivia.length_le

/-! ## Class headers -/

theorem modifierRound_follows (value : Modifiers × String) (input : List Char) :
    Follows text (modifierRound text value) (readModifiers value.1 value.2 input)
      (Goes (fun value => readModifiers value.1 value.2) Prod.mk input) input := by
  obtain ⟨seen, first⟩ := value
  rw [readModifiers]
  unfold modifierRound
  dsimp only
  cases Modifier.ofWord? first with
  | none =>
      dsimp only
      split
      · exact .pure rfl
      · exact .line (.failAt rfl)
  | some modifier =>
      dsimp only
      split
      · exact .line (.failAt rfl)
      · exact (identifier_reads input).bind fun next rest hread =>
          .pure ⟨rfl, identifier_length_lt hread⟩

theorem head?_bytesOf_iff {byte : Char} (hbyte : byte.toNat < 128) :
    (bytesOf input).head? = some byte ↔ input.head? = some byte := by
  rw [head?_bytesOf_eq_some_iff hbyte]
  cases input <;> simp

theorem clauseRound_follows (header : ClassHeader) (input : List Char) :
    Follows text (clauseRound text header) (readClauses header input)
      (Goes readClauses Prod.mk input) input := by
  rw [readClauses]
  refine (skipTrivia_skips input).bind fun _ start hskip => .peek ?_
  have hstart := (trivia_of_skipTrivia hskip).length_le
  by_cases hbrace : start.head? = some '{'
  · rw [if_pos ((head?_bytesOf_iff (by decide)).mpr hbrace), if_pos hbrace]
    exact .pure rfl
  · rw [if_neg (mt (head?_bytesOf_iff (by decide)).mp hbrace), if_neg hbrace]
    refine .line ((word_reads start).given fun clause rest hword => ?_)
    have hrest := (word_suffix (List.suffix_refl start)).length_le
    rw [hword] at hrest ⊢
    dsimp only at hrest ⊢
    split
    · refine (identifier_reads rest).bind fun nickname after hread => .pure ⟨rfl, ?_⟩
      have hafter := identifier_length_lt hread
      omega
    · split
      · refine (className_reads rest).bind fun parent after hread => .pure ⟨rfl, ?_⟩
        have hafter := className_length_lt hread
        omega
      · split <;> exact .failAt rfl

end Parcels.Header.Scanner
