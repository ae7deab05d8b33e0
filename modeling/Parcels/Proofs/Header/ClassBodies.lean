import Parcels.Proofs.Header.Words

/-!
# Reading class bodies

A body is read up to the brace that closes it.  With more braces open, as many
bodies follow one another.
-/

namespace Parcels.Header

open Text (bytesOf)

/-! ## Comments -/

theorem body_lineComment (opening : List Char) (deeper : Nat) (input : List Char) :
    Body.skip opening .lineComment deeper input =
      Body.skip opening .code deeper (afterLine input) := by
  induction input with
  | nil => rfl
  | cons char input ih =>
      by_cases hfeed : char = '\n'
      · subst hfeed
        rfl
      · rw [afterLine, List.dropWhile_cons_of_pos (by simpa using hfeed), ← afterLine, ← ih]
        simp [Body.skip]

theorem body_blockComment (opening comment : List Char) (deeper : Nat)
    (input : List Char) :
    Body.skip opening (.blockComment comment) deeper input =
      ((splitAtMarker? ['*', '/'] input).map fun split =>
        Body.skip opening .code deeper split.2).getD
          (.error ⟨comment, .unterminatedComment⟩) := by
  refine eq_of_splitAtMarker? rfl (fun _ => rfl) ?_ input
  intro char rest hnone
  have hne : ∀ after, char :: rest ≠ '*' :: '/' :: after := fun after heq =>
    hnone ⟨after, heq.symm⟩
  cases rest <;> simp_all [Body.skip]

theorem body_skip_block (opening : List Char) (deeper : Nat) (rest : List Char) :
    Body.skip opening .code deeper ('/' :: '*' :: rest) =
      Body.skip opening (.blockComment ('/' :: '*' :: rest)) deeper rest := rfl

theorem Comment.body_eq {input rest : List Char} (hcomment : Comment input rest)
    (opening : List Char) (deeper : Nat) :
    Body.skip opening .code deeper input = Body.skip opening .code deeper rest := by
  obtain ⟨_, after, rfl, rfl | rfl⟩ := hcomment.shape
  · rw [comment_line_iff.mp hcomment, ← body_lineComment]
    rfl
  · obtain ⟨text, hsplit⟩ := comment_block_iff.mp hcomment
    have hskip := body_blockComment opening ('/' :: '*' :: after) deeper after
    rw [hsplit] at hskip
    exact (body_skip_block opening deeper after).trans hskip

/-! ## Literals -/

theorem literalBytes_cons_iff {quote byte : Char} {bytes : List Char} :
    LiteralBytes quote (byte :: bytes) ↔
      (byte ≠ quote ∧ byte ≠ '\\' ∧ byte ≠ '\n') ∧ LiteralBytes quote bytes ∨
      byte = '\\' ∧ ∃ next more, bytes = next :: more ∧ LiteralBytes quote more := by
  constructor
  · intro hliteral
    cases hliteral with
    | plain hplain hmore => exact .inl ⟨hplain, hmore⟩
    | escaped hmore => exact .inr ⟨rfl, _, _, rfl, hmore⟩
  · rintro (⟨hplain, hmore⟩ | ⟨rfl, next, more, rfl, hmore⟩)
    · exact .plain hplain hmore
    · exact .escaped hmore

theorem literalBytes_append_iff {quote : Char} (hquote : quote.toNat < 128)
    {bytes rest : List Char} (hlarge : ∀ byte ∈ bytes, 128 ≤ byte.toNat) :
    LiteralBytes quote (bytes ++ rest) ↔ LiteralBytes quote rest := by
  induction bytes with
  | nil => exact Iff.rfl
  | cons byte bytes ih =>
      obtain ⟨hbyte, hothers⟩ := List.forall_mem_cons.mp hlarge
      have hne : ∀ other : Char, other.toNat < 128 → byte ≠ other := by
        rintro other hother rfl
        omega
      rw [List.cons_append, literalBytes_cons_iff, ih hothers]
      simp [hne quote hquote, hne '\\' (by decide), hne '\n' (by decide)]

variable {quote : Char}

theorem literalBytes_plain_iff (hquote : quote.toNat < 128) {char : Char}
    (hchar : char ≠ '\\') (text : List Char) :
    LiteralBytes quote (bytesOf (char :: text)) ↔
      char ≠ quote ∧ char ≠ '\n' ∧ LiteralBytes quote (bytesOf text) := by
  by_cases hsmall : char.toNat < 128
  · rw [Text.bytesOf_cons_of_lt hsmall, literalBytes_cons_iff]
    simp [hchar, and_assoc]
  · have hlarge := Nat.not_lt.mp hsmall
    obtain ⟨first, others, hbytes, hall⟩ := Text.exists_bytes_of_le hlarge
    have hne : ∀ other : Char, other.toNat < 128 → char ≠ other := by
      rintro other hother rfl
      omega
    rw [Text.bytesOf_cons, hbytes, literalBytes_append_iff hquote hall]
    simp [hne quote hquote, hne '\n' (by decide)]

/-- A backslash takes a byte with it, and so a character: the further bytes of
that character are plain. -/
theorem literalBytes_escaped_iff (hquote : quote.toNat < 128) (text : List Char) :
    LiteralBytes quote (bytesOf ('\\' :: text)) ↔
      ∃ next more, text = next :: more ∧ LiteralBytes quote (bytesOf more) := by
  rw [Text.bytesOf_cons_of_lt (by decide), literalBytes_cons_iff]
  cases text with
  | nil => simp [bytesOf]
  | cons next more =>
      by_cases hsmall : next.toNat < 128
      · simp [Text.bytesOf_cons_of_lt hsmall]
      · obtain ⟨first, others, hbytes, hall⟩ :=
          Text.exists_bytes_of_le (Nat.not_lt.mp hsmall)
        have hothers := (List.forall_mem_cons.mp hall).2
        simp [Text.bytesOf_cons, hbytes, literalBytes_append_iff hquote hothers]

section

variable {opening start : List Char} {deeper : Nat}

theorem body_literal_cons {char : Char} (hescape : char ≠ '\\') (hfeed : char ≠ '\n')
    (rest : List Char) :
    Body.skip opening (.literal quote start) deeper (char :: rest) =
      if char = quote then Body.skip opening .code deeper rest
      else Body.skip opening (.literal quote start) deeper rest := by
  simp [Body.skip, hescape]

theorem body_literal_of_bytes (hquote : quote.toNat < 128)
    (hplain : quote ≠ '\\' ∧ quote ≠ '\n') {text : List Char}
    (hliteral : LiteralBytes quote (bytesOf text)) (rest : List Char) :
    Body.skip opening (.literal quote start) deeper (text ++ quote :: rest) =
      Body.skip opening .code deeper rest := by
  match text with
  | [] => rw [List.nil_append, body_literal_cons hplain.1 hplain.2, if_pos rfl]
  | char :: text =>
      by_cases hescape : char = '\\'
      · subst hescape
        obtain ⟨next, more, rfl, hmore⟩ := (literalBytes_escaped_iff hquote text).mp hliteral
        rw [← body_literal_of_bytes hquote hplain hmore rest]
        rfl
      · obtain ⟨hdiffers, hfeed, hmore⟩ :=
          (literalBytes_plain_iff hquote hescape text).mp hliteral
        rw [List.cons_append, body_literal_cons hescape hfeed, if_neg hdiffers,
          body_literal_of_bytes hquote hplain hmore rest]

theorem bytes_of_body_literal (hquote : quote.toNat < 128) {input after : List Char}
    (hskip : Body.skip opening (.literal quote start) deeper input = .ok after) :
    ∃ text rest, input = text ++ quote :: rest ∧ LiteralBytes quote (bytesOf text) ∧
      Body.skip opening .code deeper rest = .ok after := by
  match input with
  | [] => cases hskip
  | char :: input =>
      by_cases hfeed : char = '\n'
      · subst hfeed
        cases hskip
      by_cases hescape : char = '\\'
      · subst hescape
        cases input with
        | nil => cases hskip
        | cons next more =>
            change Body.skip opening (.literal quote start) deeper more = .ok after at hskip
            obtain ⟨text, rest, rfl, hliteral, hrest⟩ := bytes_of_body_literal hquote hskip
            exact ⟨'\\' :: next :: text, rest, rfl,
              (literalBytes_escaped_iff hquote _).mpr ⟨next, text, rfl, hliteral⟩, hrest⟩
      · rw [body_literal_cons hescape hfeed] at hskip
        split at hskip
        · next hcloses =>
          subst hcloses
          exact ⟨[], input, rfl, .none, hskip⟩
        · next hdiffers =>
          obtain ⟨text, rest, rfl, hliteral, hrest⟩ := bytes_of_body_literal hquote hskip
          exact ⟨char :: text, rest, rfl,
            (literalBytes_plain_iff hquote hescape text).mpr ⟨hdiffers, hfeed, hliteral⟩, hrest⟩

end

/-! ## Bodies -/

/-- As many bodies as there are braces open, one behind the other. -/
def Closes : Nat → List Char → List Char → Prop
  | 0, input, rest => Body input rest
  | deeper + 1, input, rest => ∃ between, Body input between ∧ Closes deeper between rest

theorem Closes.of_body {input input' rest : List Char} {deeper : Nat}
    (hbody : ∀ rest, Body input rest → Body input' rest) (hcloses : Closes deeper input rest) :
    Closes deeper input' rest := by
  cases deeper with
  | zero => exact hbody rest hcloses
  | succ deeper =>
      obtain ⟨between, hfirst, hmore⟩ := hcloses
      exact ⟨between, hbody between hfirst, hmore⟩

/-- How reading goes on behind a brace that closes. -/
def afterBrace (opening : List Char) : Nat → List Char → Except Fault (List Char)
  | 0, rest => .ok rest
  | deeper + 1, rest => Body.skip opening .code deeper rest

theorem body_skip_brace (opening : List Char) (deeper : Nat) (rest : List Char) :
    Body.skip opening .code deeper ('}' :: rest) = afterBrace opening deeper rest := by
  cases deeper <;> rfl

theorem body_skip_open (opening : List Char) (deeper : Nat) (rest : List Char) :
    Body.skip opening .code deeper ('{' :: rest) =
      Body.skip opening .code (deeper + 1) rest := rfl

theorem body_skip_quote {quote : Char} (hquote : quote = '"' ∨ quote = '\'')
    (opening : List Char) (deeper : Nat) (rest : List Char) :
    Body.skip opening .code deeper (quote :: rest) =
      Body.skip opening (.literal quote (quote :: rest)) deeper rest := by
  rcases hquote with rfl | rfl <;> rfl

theorem opens_iff {char : Char} {rest : List Char} :
    Opens (char :: rest) ↔ (∃ after, char :: rest = '/' :: '/' :: after) ∨
      (∃ after, char :: rest = '/' :: '*' :: after) ∨ char ∈ ['{', '}', '"', '\''] := by
  unfold Opens
  split
  · simp_all
  · simp_all
  · next hline hblock heq =>
    cases heq
    refine ⟨fun hmem => .inr (.inr hmem), ?_⟩
    rintro (⟨after, hslashes⟩ | ⟨after, hstar⟩ | hmem)
    · cases hslashes
      exact absurd rfl (hline after rfl)
    · cases hstar
      exact absurd rfl (hblock after rfl)
    · exact hmem
  · simp_all

theorem body_skip_other {char : Char} {rest : List Char} (hnone : ¬ Opens (char :: rest))
    (opening : List Char) (deeper : Nat) :
    Body.skip opening .code deeper (char :: rest) = Body.skip opening .code deeper rest := by
  rw [opens_iff, not_or, not_or] at hnone
  obtain ⟨hline, hblock, hother⟩ := hnone
  have hslash : ∀ after, char = '/' → rest ≠ '/' :: after := by
    rintro after rfl rfl
    exact hline ⟨after, rfl⟩
  have hstar : ∀ after, char = '/' → rest ≠ '*' :: after := by
    rintro after rfl rfl
    exact hblock ⟨after, rfl⟩
  simp only [List.mem_cons, List.not_mem_nil, or_false, not_or] at hother
  simp [Body.skip, hother]

theorem quote_small {quote : Char} (hquote : quote = '"' ∨ quote = '\'') :
    quote.toNat < 128 ∧ quote ≠ '\\' ∧ quote ≠ '\n' := by
  rcases hquote with rfl | rfl <;> decide

theorem body_skip_of_body {input rest : List Char} (hbody : Body input rest)
    (opening : List Char) (deeper : Nat) :
    Body.skip opening .code deeper input = afterBrace opening deeper rest := by
  induction hbody generalizing deeper with
  | close => exact body_skip_brace opening deeper _
  | nested _ _ ihInner ihMore =>
      rw [body_skip_open, ihInner, ← ihMore deeper]
      rfl
  | comment hcomment _ ih => rw [hcomment.body_eq, ih]
  | literal hliteral _ ih =>
      obtain ⟨hisQuote, hbytes⟩ := hliteral
      obtain ⟨hsmall, hplain⟩ := quote_small hisQuote
      rw [← ih deeper, List.cons_append, body_skip_quote hisQuote,
        body_literal_of_bytes hsmall hplain hbytes]
  | other hopens _ ih => rw [body_skip_other hopens, ih]

/-- The induction is on the length of the input, with all the braces that are
open: where one more opens, the bodies read first are those of the inner ones. -/
theorem closes_of_body_skip {opening input rest : List Char} {deeper : Nat}
    (hskip : Body.skip opening .code deeper input = .ok rest) : Closes deeper input rest := by
  by_cases hcomment : ∃ after, Comment input after
  · obtain ⟨after, hcomment⟩ := hcomment
    have hlength := hcomment.length_lt
    rw [hcomment.body_eq] at hskip
    exact (closes_of_body_skip hskip).of_body fun _ => .comment hcomment
  by_cases hblock : ∃ after, input = '/' :: '*' :: after
  · obtain ⟨after, rfl⟩ := hblock
    have hmissing : splitAtMarker? ['*', '/'] after = none :=
      Option.eq_none_iff_forall_ne_some.mpr fun split hsplit =>
        hcomment ⟨split.2, comment_block_iff.mpr ⟨split.1, hsplit⟩⟩
    have hunclosed := body_blockComment opening ('/' :: '*' :: after) deeper after
    rw [hmissing] at hunclosed
    rw [body_skip_block] at hskip
    cases hskip.symm.trans hunclosed
  cases input with
  | nil => cases hskip
  | cons char input =>
      by_cases hopens : Opens (char :: input)
      · have hchar : char = '{' ∨ char = '}' ∨ char = '"' ∨ char = '\'' := by
          obtain ⟨after, hline⟩ | hstar | hmem := opens_iff.mp hopens
          · exact absurd ⟨_, hline ▸ comment_line_iff.mpr rfl⟩ hcomment
          · exact absurd hstar hblock
          · simpa using hmem
        rcases hchar with rfl | rfl | hquote
        · rw [body_skip_open] at hskip
          obtain ⟨between, hinner, hmore⟩ := closes_of_body_skip hskip
          exact hmore.of_body fun _ => .nested hinner
        · rw [body_skip_brace] at hskip
          cases deeper with
          | zero =>
              cases hskip
              exact .close
          | succ deeper => exact ⟨input, .close, closes_of_body_skip hskip⟩
        · rw [body_skip_quote hquote] at hskip
          obtain ⟨text, after, rfl, hbytes, hafter⟩ :=
            bytes_of_body_literal (quote_small hquote).1 hskip
          exact (closes_of_body_skip hafter).of_body fun _ => .literal (.literal hquote hbytes)
      · rw [body_skip_other hopens] at hskip
        exact (closes_of_body_skip hskip).of_body fun _ => .other hopens
termination_by input.length
decreasing_by all_goals simp_all; try omega

/-- A body is skipped up to the brace that closes it. -/
theorem skipBody_eq_ok_iff {input rest : List Char} :
    skipBody ('{' :: input) = .ok rest ↔ Body input rest := by
  constructor
  · exact closes_of_body_skip
  · intro hbody
    exact body_skip_of_body hbody _ 0

end Parcels.Header
