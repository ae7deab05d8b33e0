import Parcels.Proofs.Header.Scanner.Bodies

/-!
# Scanning whole headers

The scanner comes to the declarations, or to the fault, that the outline reader
finds.  On the way its cursor never leaves the text, stands between characters
and knows its line.
-/

namespace Parcels.Header.Scanner

variable {text : String} {input : List Char}

/-! ## Items -/

theorem readParcelStatement_eq (input : List Char) :
    Header.readParcelStatement input = (do
      let (name, afterName) ← Header.identifier input
      let start ← Header.skipTrivia afterName
      let rest ← readByte ';' .expectedSemicolon start
      return (.parcelStatement name, rest)) := by
  unfold Header.readParcelStatement
  congr 1
  funext found
  dsimp only
  congr 1
  funext start
  unfold readByte
  split
  · rfl
  · next hnone =>
    rw [if_neg]
    · rfl
    · intro hhead
      obtain ⟨rest, rfl⟩ := List.head?_eq_some_iff.mp hhead
      exact hnone rest rfl

theorem readParcelStatement_reads (input : List Char) :
    Reads text (readParcelStatement text) (Header.readParcelStatement input) input := by
  rw [readParcelStatement_eq]
  refine (identifier_reads input).bind fun name afterName _ => ?_
  refine (skipTrivia_skips afterName).bind fun _ start _ => ?_
  exact (expect_skips (by decide) _ start).bind fun _ rest _ => .pure rfl

theorem readClass_reads (parcel : Option String) (start : List Char) (first : String)
    (input : List Char) :
    Reads text (readClass text parcel (lineAt text.toList start) first)
      (Header.readClass parcel start first input) input := by
  refine (loop_follows modifierRound_follows ({}, first) input).bind fun modifiers words _ => ?_
  cases parcel with
  | none => exact .failAt rfl
  | some parcel =>
      refine (className_reads words).bind fun name afterName _ => ?_
      refine (loop_follows clauseRound_follows { name := name, modifiers := modifiers }
        afterName).bind fun header body hheader => ?_
      obtain ⟨_, _, hclauses, -⟩ := clauses_of_readClauses hheader
      obtain ⟨inner, rfl⟩ := hclauses.body_starts
      exact (skipBody_skips inner).bind fun _ rest _ => .pure rfl

theorem readItem_eq (parcel : Option String) (start : List Char) :
    Header.readItem parcel start =
      let (first, rest) := Header.word start
      if first = "parcel" then Header.readParcelStatement rest
      else if first = blockStart then (do
        let (code, after) ← readBlock start rest
        return (.cBlock code, after))
      else if first = "" then .error ⟨start, .unexpectedCharacter⟩
      else Header.readClass parcel start first rest := by
  unfold Header.readItem readBlock
  dsimp only
  cases splitAtMarker? blockEnd.toList (Header.word start).2 <;> rfl

theorem readItem_reads (parcel : Option String) (start : List Char) :
    Reads text (readItem text parcel) (Header.readItem parcel start) start := by
  refine .line ((word_reads start).given fun first rest hword => ?_)
  rw [readItem_eq, hword]
  dsimp only
  split
  · exact readParcelStatement_reads rest
  · split
    · exact (cBlock_reads start rest).bind fun code after _ => .pure rfl
    · split
      · exact .failAt rfl
      · exact readClass_reads parcel start first rest

/-! ## Whole headers -/

/-- The declarations of the rest of a text, behind those that have been read. -/
def furtherItems (found : List Decl × Option String) (input : List Char) :
    Except Fault (List Decl) :=
  (readItems input.length found.2 input).map (found.1 ++ ·)

theorem furtherItems_start (parcel : Option String) (input : List Char) :
    furtherItems ([], parcel) input = readItems input.length parcel input := by
  unfold furtherItems
  cases readItems input.length parcel input <;> rfl

/-- After an item the bound is again the length of what is left. -/
theorem furtherItems_eq (decls : List Decl) (parcel : Option String) (input : List Char) :
    furtherItems (decls, parcel) input = (do
      let start ← Header.skipTrivia input
      if start = [] then return decls
      let (decl, rest) ← Header.readItem parcel start
      furtherItems (decls ++ [decl], decl.parcelAfter parcel) rest) := by
  rw [furtherItems, readItems_of_length_le (Nat.le_refl _) (Nat.le_succ input.length), readItems]
  cases hskip : Header.skipTrivia input with
  | error fault => rfl
  | ok start =>
      have hlength := (trivia_of_skipTrivia hskip).length_le
      cases start with
      | nil => simp [bind, Except.bind, pure, Except.pure, Except.map]
      | cons first others =>
          cases hread : Header.readItem parcel (first :: others) with
          | error fault => simp [bind, Except.bind, hread, Except.map]
          | ok item =>
              have hshorter := (readItem_eq_ok_iff.mp hread).length_lt
              have hbound : item.2.length ≤ input.length := by omega
              have hmore := @readItems_of_length_le item.2 _ _ (item.1.parcelAfter parcel) hbound
                (Nat.le_refl item.2.length)
              simp only [bind, Except.bind, hread, hmore, furtherItems]
              cases readItems item.2.length (item.1.parcelAfter parcel) item.2 <;>
                simp [pure, Except.pure, Except.map]

theorem place_end_iff (hinput : input <:+ text.toList) :
    text.utf8ByteSize ≤ (cursorAt text input).place ↔ input = [] := by
  have hinside := byteLength_le hinput
  constructor
  · intro hend
    by_contra hne
    have hpos := byteLength_pos hne
    change text.utf8ByteSize ≤ text.utf8ByteSize - byteLength input at hend
    omega
  · rintro rfl
    exact Nat.le_refl _

theorem itemRound_follows (found : List Decl × Option String) (input : List Char) :
    Follows text (itemRound text found) (furtherItems found input)
      (Goes furtherItems (fun decls _ => decls) input) input := by
  obtain ⟨decls, parcel⟩ := found
  rw [furtherItems_eq]
  refine (skipTrivia_skips input).bind fun _ start hskip => .place fun hsuffix => ?_
  by_cases hend : start = []
  · rw [if_pos ((place_end_iff hsuffix).mpr hend), if_pos hend]
    exact .pure rfl
  · rw [if_neg (mt (place_end_iff hsuffix).mp hend), if_neg hend]
    refine (readItem_reads parcel start).bind fun decl rest hread => .pure ⟨rfl, ?_⟩
    exact Nat.lt_of_lt_of_le (readItem_eq_ok_iff.mp hread).length_lt
      (trivia_of_skipTrivia hskip).length_le

theorem line_locate_le {bound : Nat} {parcel : Option String} {fault : Fault}
    (hfault : readItems bound parcel input = .error fault) :
    1 ≤ (fault.locate input).line ∧ (fault.locate input).line ≤ 1 + lineFeeds input := by
  have hfeeds := lineFeeds_remaining_le hfault
  change 1 ≤ lineAt input fault.remaining ∧ lineAt input fault.remaining ≤ 1 + lineFeeds input
  rw [lineAt]
  omega

/-- Scanning a text byte by byte ends, and it comes to just what the outline reader
finds.  The cursor is at all times within the text, where a character starts or
the text ends, and its line is one more than the line feeds before it.  No part of
the text is taken from within a character, and every round of a loop that another
one follows moves the cursor forward.  A syntax error is on a line of the text. -/
theorem scan_stays_on_track (text : String) :
    Ends (scan text {})
      (fun decls after => Header.scan text = .ok decls ∧ OnTrack text after)
      (fun stop after => OnTrack text after ∧
        ∃ error, stop = .syntaxError error ∧ Header.scan text = .error error ∧
          1 ≤ error.line ∧ error.line ≤ 1 + lineFeeds text.toList) := by
  have hscan : Follows text (scan text) (furtherItems ([], none) text.toList)
      (Returns fun decls _ => decls) text.toList :=
    loop_follows itemRound_follows ([], none) text.toList
  rw [furtherItems_start] at hscan
  refine (hscan {} (at_start text)).mono ?_ ?_
  · rintro decls after ⟨rest, hread, hafter⟩
    refine ⟨?_, hafter.onTrack⟩
    rw [Header.scan, hread]
    rfl
  · rintro stop after ⟨honTrack, fault, hfault, rfl⟩
    refine ⟨honTrack, fault.locate text.toList, rfl, ?_, line_locate_le hfault⟩
    rw [Header.scan, hfault]
    rfl

/-- A backslash in a literal may take the first byte of a character and leave the
others. -/
example :
    Ends (scan "parcel Farm;\nclass Cow \x7b '\\ü'\n\x7d" {})
      (fun decls after =>
        decls = [.parcelStatement "Farm", .classHeader "Farm" { name := "Cow" }] ∧
          after.cursor = ⟨32, 3⟩)
      (fun _ _ => False) := by
  decide +kernel

end Parcels.Header.Scanner
