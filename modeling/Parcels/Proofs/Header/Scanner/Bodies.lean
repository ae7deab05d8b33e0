import Parcels.Proofs.Header.Scanner.Words

/-!
# Scanning class bodies and C blocks

A literal is skipped by its bytes, and a backslash takes one byte with it.  The
further bytes of a character are no quotes, so a literal ends where it ends for
a reader of characters.
-/

namespace Parcels.Header

open Json.Cursor (bytesFrom)
open Text (bytesOf head?_bytesOf_eq_some_iff)

variable {quote : Char} {input inside rest : List Char}

/-! ## Literals as characters -/

/-- What a literal has inside, and what is behind its closing quote. -/
def literalSplit? (quote : Char) : List Char → Option (List Char × List Char)
  | [] => none
  | ['\\'] => none
  | '\\' :: char :: rest =>
      (literalSplit? quote rest).map fun (inside, after) => ('\\' :: char :: inside, after)
  | char :: rest =>
      if char = '\n' then none
      else if char = quote then some ([], rest)
      else (literalSplit? quote rest).map fun (inside, after) => (char :: inside, after)

theorem ne_backslash {char : Char} (hlast : char = '\\' → rest ≠ [])
    (hescape : ∀ next after, char = '\\' → rest ≠ next :: after) : char ≠ '\\' := by
  intro hchar
  cases rest with
  | nil => exact hlast hchar rfl
  | cons next after => exact hescape next after hchar rfl

theorem body_literal (opening start : List Char) (deeper : Nat) (input : List Char) :
    Body.skip opening (.literal quote start) deeper input =
      ((literalSplit? quote input).map fun split =>
        Body.skip opening .code deeper split.2).getD (.error ⟨start, .unterminatedLiteral⟩) := by
  fun_induction literalSplit? quote input with
  | case1 | case2 | case4 => rfl
  | case3 char rest ih =>
      change Body.skip opening (.literal quote start) deeper rest = _
      rw [ih, Option.map_map]
      rfl
  | case5 rest hlast hescape hfeed =>
      rw [body_literal_cons (ne_backslash hlast hescape) hfeed, if_pos rfl]
      rfl
  | case6 char rest hlast hescape hfeed hdiffers ih =>
      rw [body_literal_cons (ne_backslash hlast hescape) hfeed, if_neg hdiffers, ih,
        Option.map_map]
      rfl

theorem literalSplit?_split (hsplit : literalSplit? quote input = some (inside, rest)) :
    input = inside ++ quote :: rest := by
  fun_induction literalSplit? quote input generalizing inside with
  | case1 | case2 | case4 => cases hsplit
  | case3 char after ih =>
      obtain ⟨⟨more, _⟩, hmore, hpair⟩ := Option.map_eq_some_iff.mp hsplit
      cases hpair
      rw [ih hmore]
      rfl
  | case5 =>
      cases hsplit
      rfl
  | case6 char after _ _ _ _ ih =>
      obtain ⟨⟨more, _⟩, hmore, hpair⟩ := Option.map_eq_some_iff.mp hsplit
      cases hpair
      rw [ih hmore]
      rfl

/-- Reads a literal behind its opening quote. -/
def readLiteral (quote : Char) (rest : List Char) : Except Fault (List Char) :=
  match literalSplit? quote rest with
  | some (_, after) => .ok after
  | none => .error ⟨quote :: rest, .unterminatedLiteral⟩

theorem body_skip_literal (hquote : quote = '"' ∨ quote = '\'') (opening : List Char)
    (deeper : Nat) (rest : List Char) :
    Body.skip opening .code deeper (quote :: rest) =
      readLiteral quote rest >>= Body.skip opening .code deeper := by
  rw [body_skip_quote hquote, body_literal, readLiteral]
  cases literalSplit? quote rest <;> rfl

theorem readLiteral_length_lt {after : List Char} (hread : readLiteral quote rest = .ok after) :
    after.length < (quote :: rest).length := by
  unfold readLiteral at hread
  split at hread
  · next hsplit =>
    cases hread
    rw [literalSplit?_split hsplit]
    simp only [List.length_append, List.length_cons]
    omega
  · cases hread

/-! ## Literals as bytes -/

namespace Scanner

variable {bytes : List Char}

theorem literalLength?_cons {byte : Char}
    (hplain : byte ≠ quote ∧ byte ≠ '\\' ∧ byte ≠ '\n') :
    literalLength? quote (byte :: bytes) = (literalLength? quote bytes).map (· + 1) := by
  obtain ⟨hquote, hescape, hfeed⟩ := hplain
  rw [literalLength?]
  · rw [if_neg hfeed, if_neg hquote]
  · simp [hescape]
  · simp [hescape]

/-- Bytes of characters from 128 on are passed one by one. -/
theorem literalLength?_append (hquote : quote.toNat < 128)
    (hlarge : ∀ byte ∈ bytes, 128 ≤ byte.toNat) (rest : List Char) :
    literalLength? quote (bytes ++ rest) = (literalLength? quote rest).map (· + bytes.length) := by
  induction bytes with
  | nil => simp
  | cons byte bytes ih =>
      obtain ⟨hbyte, hothers⟩ := List.forall_mem_cons.mp hlarge
      have hne : ∀ other : Char, other.toNat < 128 → byte ≠ other := by
        rintro other hother rfl
        omega
      rw [List.cons_append,
        literalLength?_cons ⟨hne quote hquote, hne '\\' (by decide), hne '\n' (by decide)⟩,
        ih hothers, Option.map_map]
      rfl

theorem literalLength?_escaped (hquote : quote.toNat < 128) (char : Char) (rest : List Char) :
    literalLength? quote (bytesOf ('\\' :: char :: rest)) =
      (literalLength? quote (bytesOf rest)).map (· + (char.utf8Size + 1)) := by
  obtain ⟨first, others, hbytes, hlarge⟩ := Text.exists_further_bytes char
  rw [Text.bytesOf_cons_of_lt (by decide), Text.bytesOf_cons, hbytes, Text.utf8Size_eq hbytes,
    List.cons_append, literalLength?, literalLength?_append hquote hlarge, Option.map_map]
  rfl

theorem literalLength?_plain (hquote : quote.toNat < 128) {char : Char}
    (hplain : char ≠ quote ∧ char ≠ '\\' ∧ char ≠ '\n') (rest : List Char) :
    literalLength? quote (bytesOf (char :: rest)) =
      (literalLength? quote (bytesOf rest)).map (· + char.utf8Size) := by
  by_cases hsmall : char.toNat < 128
  · rw [Text.bytesOf_cons_of_lt hsmall, literalLength?_cons hplain,
      Text.utf8Size_eq (Text.bytes_of_lt hsmall)]
    rfl
  · obtain ⟨first, others, hbytes, hlarge⟩ := Text.exists_bytes_of_le (Nat.not_lt.mp hsmall)
    rw [Text.bytesOf_cons, hbytes, literalLength?_append hquote hlarge, Text.utf8Size_eq hbytes]

theorem literalLength?_bytesOf (hquote : quote.toNat < 128) (input : List Char) :
    literalLength? quote (bytesOf input) =
      (literalSplit? quote input).map fun split => byteLength split.1 := by
  fun_induction literalSplit? quote input with
  | case1 | case2 | case4 => rfl
  | case3 char rest ih =>
      have hlength : ∀ inside, byteLength inside + (char.utf8Size + 1) =
          byteLength ('\\' :: char :: inside) := by
        intro inside
        have hone : '\\'.utf8Size = 1 := rfl
        rw [byteLength_cons, byteLength_cons]
        omega
      rw [literalLength?_escaped hquote, ih, Option.map_map, Option.map_map]
      exact congrArg₂ _ (funext fun split => hlength split.1) rfl
  | case5 rest hlast hescape hfeed =>
      rw [Text.bytesOf_cons_of_lt hquote, literalLength?, if_neg hfeed, if_pos rfl]
      · rfl
      · exact fun hchar => absurd hchar (ne_backslash hlast hescape)
      · exact fun next after hchar => absurd hchar (ne_backslash hlast hescape)
  | case6 char rest hlast hescape hfeed hdiffers ih =>
      have hlength : ∀ inside, byteLength inside + char.utf8Size =
          byteLength (char :: inside) := by
        intro inside
        rw [byteLength_cons, Nat.add_comm]
      rw [literalLength?_plain hquote ⟨hdiffers, ne_backslash hlast hescape, hfeed⟩, ih,
        Option.map_map, Option.map_map]
      exact congrArg₂ _ (funext fun split => hlength split.1) rfl

variable {text : String} {start : List Char}

theorem skipLiteral_skips (hquote : quote.toNat < 128) (rest : List Char) :
    Skips text (skipLiteral text quote) (readLiteral quote rest) (quote :: rest) := by
  refine .line (.ahead (.place fun hsuffix => ?_))
  have hone : byteLength [quote] = 1 := byteLength_cons_of_lt hquote []
  have hinside : bytesFrom text ((cursorAt text (quote :: rest)).place + 1) = bytesOf rest := by
    have hplace := place_add [quote] hsuffix
    rw [hone, List.singleton_append] at hplace
    rw [hplace, bytesFrom_cursorAt (suffix_of_cons hsuffix)]
  rw [hinside, literalLength?_bytesOf hquote, readLiteral]
  cases hsplit : literalSplit? quote rest with
  | none => exact .failAt rfl
  | some split =>
      obtain ⟨inside, after⟩ := split
      refine .advanceLast ([quote] ++ inside ++ [quote]) ?_ ?_ rfl
      · simp [literalSplit?_split hsplit]
      · simp only [byteLength_append, hone]
        omega

/-! ## Bodies -/

/-- Reads the byte, or stops for the cause. -/
def readByte (byte : Char) (cause : Cause) (input : List Char) : Except Fault (List Char) :=
  if input.head? = some byte then .ok input.tail else .error ⟨input, cause⟩

theorem expect_skips {byte : Char} (hbyte : byte.toNat < 128) (cause : Cause)
    (input : List Char) :
    Skips text (expect text byte cause) (readByte byte cause input) input := by
  refine .peek ?_
  unfold readByte
  by_cases hhead : input.head? = some byte
  · rw [if_pos ((head?_bytesOf_iff hbyte).mpr hhead), if_pos hhead]
    obtain ⟨rest, rfl⟩ := List.head?_eq_some_iff.mp hhead
    exact .advanceLast [byte] rfl (byteLength_cons_of_lt hbyte []).symm rfl
  · rw [if_neg (mt (head?_bytesOf_iff hbyte).mp hhead), if_neg hhead]
    exact .line (.failAt rfl)

theorem not_opens_of_isBlank {char : Char} (hblank : Text.isBlank char = true)
    (rest : List Char) : ¬ Opens (char :: rest) := by
  have hne : ∀ other, Text.isBlank other = false → char ≠ other := by
    rintro other hother rfl
    exact absurd hblank (by simp [hother])
  rw [opens_iff]
  rintro (⟨after, hline⟩ | ⟨after, hblock⟩ | hmem)
  · exact hne '/' (by decide) (List.cons.inj hline).1
  · exact hne '/' (by decide) (List.cons.inj hblock).1
  · have hmark : char = '{' ∨ char = '}' ∨ char = '"' ∨ char = '\'' := by simpa using hmem
    rcases hmark with hchar | hchar | hchar | hchar <;> exact hne _ (by decide) hchar

/-- Trivia in a body are skipped as they are anywhere. -/
def inBody : Trivia.Mode → Body.Mode
  | .between => .code
  | .lineComment => .lineComment
  | .blockComment opening => .blockComment opening

theorem body_skip_inBody (opening : List Char) (mode : Trivia.Mode) (deeper : Nat)
    (input : List Char) :
    Body.skip opening (inBody mode) deeper input =
      Trivia.skip mode input >>= Body.skip opening .code deeper := by
  fun_induction Trivia.skip mode input with
  | case1 | case5 | case6 | case9 => rfl
  | case2 rest ih | case3 rest ih | case7 rest ih => exact ih
  | case10 opening rest ih => exact ih
  | case4 char rest _ _ hblank ih =>
      rw [← ih]
      exact body_skip_other (not_opens_of_isBlank hblank rest) opening deeper
  | case8 char rest hfeed ih =>
      rw [← ih]
      simp_all [Body.skip, inBody]
  | case11 _ char rest hclose ih =>
      rw [← ih]
      simp_all [Body.skip, inBody]

theorem body_skip_trivia (opening : List Char) (deeper : Nat) (input : List Char) :
    Body.skip opening .code deeper input =
      Header.skipTrivia input >>= Body.skip opening .code deeper :=
  body_skip_inBody opening .between deeper input

/-- Where no trivia are left, no comment starts. -/
theorem not_comment_of_skipTrivia {start : List Char} (hskip : Header.skipTrivia start = .ok start)
    (after : List Char) : ¬ Comment start after := by
  intro hcomment
  have hlonger := (trivia_of_skipTrivia (hcomment.skipTrivia_eq.symm.trans hskip)).length_le
  exact Nat.not_le.mpr hcomment.length_lt hlonger

theorem not_opens_of_skipTrivia {char : Char}
    (hskip : Header.skipTrivia (char :: rest) = .ok (char :: rest))
    (hmark : char ∉ ['{', '}', '"', '\'']) : ¬ Opens (char :: rest) := by
  rw [opens_iff]
  rintro (⟨after, hline⟩ | ⟨after, hblock⟩ | hmem)
  · rw [hline] at hskip
    exact not_comment_of_skipTrivia hskip _ (comment_line_iff.mpr rfl)
  · rw [hblock] at hskip
    have hclosed : ∀ split, splitAtMarker? ['*', '/'] after ≠ some split := fun split hsplit =>
      not_comment_of_skipTrivia hskip _ (comment_block_iff.mpr ⟨split.1, hsplit⟩)
    have hread := skip_blockComment ('/' :: '*' :: after) after
    rw [Option.eq_none_iff_forall_ne_some.mpr hclosed] at hread
    cases hskip.symm.trans hread
  · exact hmark hmem

theorem not_mark_of_head? {byte char : Char} (hhead : (bytesOf (char :: rest)).head? = some byte)
    (hbyte : byte ∉ ['{', '}', '"', '\'']) : char ∉ ['{', '}', '"', '\''] := by
  intro hmem
  have hsmall : ∀ mark ∈ ['{', '}', '"', '\''], mark.toNat < 128 := by simp
  have hfirst := (head?_bytesOf_eq_some_iff (hsmall char hmem)).mpr ⟨rest, rfl⟩
  obtain rfl : byte = char := Option.some.inj (hhead.symm.trans hfirst)
  exact hbyte hmem

theorem bodyRound_follows {opening : List Char} (depth : Nat) (input : List Char) :
    Follows text (bodyRound text (lineAt text.toList opening) depth)
      (afterBrace opening depth input)
      (Goes (afterBrace opening) (fun _ rest => rest) input) input := by
  cases depth with
  | zero => exact .pure rfl
  | succ deeper =>
      change Follows text _ (Body.skip opening .code deeper input) _ input
      rw [body_skip_trivia]
      refine (skipTrivia_skips input).bind fun _ start hskip => .peek ?_
      have hagain := skipTrivia_again hskip
      have hstart := (trivia_of_skipTrivia hskip).length_le
      generalize hhead : (bytesOf start).head? = head
      dsimp only
      split
      · obtain rfl : start = [] := by
          have hlength := Text.length_le_length_bytesOf start
          rw [List.head?_eq_none_iff.mp hhead] at hlength
          exact List.length_eq_zero_iff.mp (Nat.le_zero.mp hlength)
        exact .failAt rfl
      · obtain ⟨rest, rfl⟩ := (head?_bytesOf_eq_some_iff (by decide)).mp hhead
        exact .advance ['{'] rfl rfl (.pure ⟨rfl, hstart⟩)
      · obtain ⟨rest, rfl⟩ := (head?_bytesOf_eq_some_iff (by decide)).mp hhead
        exact .advance ['}'] rfl rfl
          (.pure ⟨body_skip_brace opening deeper rest, hstart⟩)
      · next byte hopens hcloses =>
        split
        · next hquote =>
          have hsmall := (quote_small hquote).1
          obtain ⟨rest, rfl⟩ := (head?_bytesOf_eq_some_iff hsmall).mp hhead
          rw [body_skip_literal hquote]
          refine (skipLiteral_skips hsmall rest).bind fun _ after hread => .pure ⟨rfl, ?_⟩
          exact Nat.lt_of_lt_of_le (readLiteral_length_lt hread) hstart
        · next hquote =>
          cases start with
          | nil => cases hhead
          | cons char rest =>
              have hmark := not_mark_of_head? hhead (by simp_all)
              have hother := body_skip_other (not_opens_of_skipTrivia hagain hmark) opening deeper
              exact .ahead (.advance [char] rfl (byteLength_cons char []).symm
                (.pure ⟨hother, hstart⟩))

theorem skipBody_skips (rest : List Char) :
    Skips text (skipBody text) (Header.skipBody ('{' :: rest)) ('{' :: rest) := by
  have hexpect : Skips text (expect text '{' .expectedBrace) (.ok rest) ('{' :: rest) :=
    expect_skips (by decide) _ _
  refine .line (hexpect.given ?_)
  rintro _ _ rfl
  exact loop_follows bodyRound_follows 1 rest

/-! ## C blocks -/

/-- Reads a C block whose start mark stands where the text `start` begins. -/
def readBlock (start rest : List Char) : Except Fault (String × List Char) :=
  match splitAtMarker? blockEnd.toList rest with
  | some (code, after) => .ok (String.ofList code, after)
  | none => .error ⟨start, .unterminatedBlock⟩

theorem cBlock_reads (start rest : List Char) :
    Reads text (cBlock text (lineAt text.toList start)) (readBlock start rest) rest := by
  refine .ahead ?_
  unfold readBlock
  cases hsplit : splitAtMarker? blockEnd.toList rest with
  | none => exact .failAt rfl
  | some found =>
      obtain ⟨code, after⟩ := found
      have hupTo := (splitAtMarker?_eq_some_iff (by decide)).mp hsplit
      have hrest : rest = code ++ (blockEnd.toList ++ after) := by
        rw [hupTo.split, List.append_assoc]
      refine .place fun hsuffix => .advance _ hupTo.split ?_ ?_
      · rw [byteLength_append, byteLength_toList]
      · rw [hrest] at hsuffix ⊢
        exact .take hsuffix rfl (place_add _ hsuffix) (.pure rfl)

end Scanner

end Parcels.Header
