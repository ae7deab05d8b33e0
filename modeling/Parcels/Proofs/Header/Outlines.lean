import Parcels.Proofs.Header.ClassBodies
import Parcels.Proofs.Header.ClassHeaders

/-!
# Reading outlines

The first word of an item decides what it is.  Every item takes characters, so
the bound of the scanner is never reached before the end of the text.
-/

namespace Parcels.Header

/-! ## Items -/

theorem readParcelStatement_eq_ok_iff {input rest : List Char} {decl : Decl} :
    readParcelStatement input = .ok (decl, rest) ↔
      ∃ name start afterName, Trivia input start ∧ Word name start afterName ∧
        Trivia afterName (';' :: rest) ∧ decl = .parcelStatement name := by
  constructor
  · intro hread
    obtain ⟨⟨name, afterName⟩, hname, hmore⟩ := ok_of_bind hread
    obtain ⟨start, htrivia, hword⟩ := identifier_eq_ok_iff.mp hname
    obtain ⟨final, hskip, hend⟩ := ok_of_bind hmore
    split at hend
    · cases hend
      exact ⟨name, start, afterName, htrivia, hword, trivia_of_skipTrivia hskip, rfl⟩
    · cases hend
  · rintro ⟨name, start, afterName, htrivia, hword, hend, rfl⟩
    have hsemicolon : skipTrivia (';' :: rest) = .ok (';' :: rest) :=
      skipTrivia_token (by decide) (by decide) rest
    simp only [readParcelStatement, identifier_eq_ok_iff.mpr ⟨start, htrivia, hword⟩,
      hend.skipTrivia_eq, hsemicolon, bind, Except.bind, pure, Except.pure]

theorem Clauses.body_starts {nickname parent : Option String} {input body : List Char}
    (hclauses : Clauses nickname parent input body) : ∃ inner, body = '{' :: inner := by
  induction hclauses with
  | none => exact ⟨_, rfl⟩
  | nickname _ _ _ _ _ ih => exact ih
  | inherits _ _ _ _ _ ih => exact ih

theorem readClass_eq_ok_iff {parcel : Option String} {start input afterFirst rest : List Char}
    {first : String} {decl : Decl} (hfirst : Word first input afterFirst) :
    readClass parcel start first afterFirst = .ok (decl, rest) ↔
      ∃ (parcelName name : String) (nickname parent : Option String)
        (modifiers : List Modifier) (afterWords nameStart afterName body : List Char),
        parcel = some parcelName ∧ ModifierWords modifiers input afterWords ∧
        modifiers.Nodup ∧ Trivia afterWords nameStart ∧ ClassName name nameStart afterName ∧
        Clauses nickname parent afterName ('{' :: body) ∧ Body body rest ∧
        decl = .classHeader parcelName
          { name := name, nickname := nickname, parent := parent,
            modifiers := modifiers.foldl Modifiers.insert {} } := by
  constructor
  · intro hread
    obtain ⟨⟨modifiers, afterWords⟩, hmodifiers, hmore⟩ := ok_of_bind hread
    obtain ⟨words, hwords, hnodup, -, rfl⟩ := (readModifiers_eq_ok_iff hfirst).mp hmodifiers
    cases parcel with
    | none => cases hmore
    | some parcelName =>
      obtain ⟨⟨name, afterName⟩, hname, hmore⟩ := ok_of_bind hmore
      obtain ⟨nameStart, htrivia, hclassName, -⟩ := className_eq_ok_iff.mp hname
      obtain ⟨⟨header, body⟩, hheader, hmore⟩ := ok_of_bind hmore
      obtain ⟨nickname, parent, hclauses, -, -, rfl⟩ := clauses_of_readClauses hheader
      obtain ⟨inner, rfl⟩ := hclauses.body_starts
      obtain ⟨after, hbody, hpair⟩ := ok_of_bind hmore
      cases hpair
      refine ⟨parcelName, name, nickname, parent, words, afterWords, nameStart, afterName, inner,
        rfl, hwords, hnodup, htrivia, hclassName, hclauses, skipBody_eq_ok_iff.mp hbody, ?_⟩
      simp [withClauses]
  · rintro ⟨parcelName, name, nickname, parent, words, afterWords, nameStart, afterName, body,
      rfl, hwords, hnodup, htrivia, hclassName, hclauses, hbody, rfl⟩
    have hmodifiers : readModifiers {} first afterFirst =
        .ok (words.foldl Modifiers.insert {}, afterWords) :=
      (readModifiers_eq_ok_iff hfirst).mpr ⟨words, hwords, hnodup,
        fun modifier _ => by cases modifier <;> rfl, rfl⟩
    have hname := className_eq_ok_iff.mpr ⟨nameStart, htrivia, hclassName, hclauses.not_colons⟩
    have hheader := readClauses_of_clauses hclauses
      { name := name, modifiers := words.foldl Modifiers.insert {} } (.inl rfl) (.inl rfl)
    simp only [readClass, hmodifiers, hname, hheader, skipBody_eq_ok_iff.mpr hbody, bind,
      Except.bind, pure, Except.pure]
    simp [withClauses]

theorem ModifierWords.first_ne {modifiers : List Modifier} {first : String}
    {input afterFirst rest : List Char} (hfirst : Word first input afterFirst)
    (hwords : ModifierWords modifiers input rest) :
    first ≠ "parcel" ∧ first ≠ blockStart := by
  obtain ⟨-, rfl, -⟩ | ⟨modifier, _, _, -, rfl, -⟩ := (modifierWords_iff hfirst).mp hwords
  · decide
  · cases modifier <;> decide

theorem Item.starts {parcel : Option String} {decl : Decl} {start rest : List Char}
    (hitem : Item parcel decl start rest) : ∃ first afterFirst, Word first start afterFirst := by
  cases hitem with
  | parcelStatement hword => exact ⟨_, _, hword⟩
  | cBlock hword => exact ⟨_, _, hword⟩
  | classHeader hwords => exact hwords.starts

/-- One item is read just when the grammar has it. -/
theorem readItem_eq_ok_iff {parcel : Option String} {decl : Decl} {start rest : List Char} :
    readItem parcel start = .ok (decl, rest) ↔ Item parcel decl start rest := by
  by_cases hword : ∃ first afterFirst, Word first start afterFirst
  · obtain ⟨first, afterFirst, hfirst⟩ := hword
    obtain ⟨hread, hnonempty⟩ := word_iff.mp hfirst
    simp only [readItem, hread, hnonempty, if_false]
    constructor
    · intro hitem
      split at hitem
      · next hparcel =>
        subst hparcel
        obtain ⟨name, nameStart, afterName, htrivia, hname, hend, rfl⟩ :=
          readParcelStatement_eq_ok_iff.mp hitem
        exact .parcelStatement hfirst htrivia hname hend
      · split at hitem
        · next hblock =>
          subst hblock
          split at hitem
          · next code after hsplit =>
            cases hitem
            exact .cBlock hfirst ((splitAtMarker?_eq_some_iff (by decide)).mp hsplit)
          · cases hitem
        · obtain ⟨parcelName, name, nickname, parent, modifiers, afterWords, nameStart, afterName,
            body, rfl, hwords, hnodup, htrivia, hname, hclauses, hbody, rfl⟩ :=
            (readClass_eq_ok_iff hfirst).mp hitem
          exact .classHeader hwords hnodup htrivia hname hclauses hbody
    · intro hitem
      cases hitem with
      | parcelStatement hparcel htrivia hname hend =>
          obtain ⟨rfl, rfl⟩ := hfirst.unique hparcel
          rw [if_pos rfl]
          exact readParcelStatement_eq_ok_iff.mpr ⟨_, _, _, htrivia, hname, hend, rfl⟩
      | cBlock hblock hupTo =>
          obtain ⟨rfl, rfl⟩ := hfirst.unique hblock
          rw [if_neg (by decide), if_pos rfl,
            (splitAtMarker?_eq_some_iff (by decide)).mpr hupTo]
      | classHeader hwords hnodup htrivia hname hclauses hbody =>
          obtain ⟨hparcel, hblock⟩ := hwords.first_ne hfirst
          rw [if_neg hparcel, if_neg hblock]
          exact (readClass_eq_ok_iff hfirst).mpr ⟨_, _, _, _, _, _, _, _, _,
            rfl, hwords, hnodup, htrivia, hname, hclauses, hbody, rfl⟩
  · refine iff_of_false (fun hread => hword ?_) fun hitem => hword hitem.starts
    by_cases hempty : (word start).1 = ""
    · have hfault : readItem parcel start = .error ⟨start, .unexpectedCharacter⟩ := by
        rw [readItem, ← Prod.eta (word start), hempty]
        rfl
      cases hread.symm.trans hfault
    · exact ⟨_, _, word_iff.mpr ⟨rfl, hempty⟩⟩

/-! ## Lengths -/

theorem Trivia.length_le {input rest : List Char} (htrivia : Trivia input rest) :
    rest.length ≤ input.length := by
  induction htrivia with
  | none => exact Nat.le_refl _
  | blank _ _ ih => exact Nat.le_succ_of_le ih
  | comment hcomment _ ih => exact Nat.le_trans ih (Nat.le_of_lt hcomment.length_lt)

theorem ClassName.length_lt {name : String} {input rest : List Char}
    (hname : ClassName name input rest) : rest.length < input.length := by
  induction hname with
  | word hword => exact hword.length_lt
  | qualified hword _ ih =>
      have hfirst := hword.length_lt
      simp only [List.length_cons] at hfirst
      omega

theorem ModifierWords.length_lt {modifiers : List Modifier} {input rest : List Char}
    (hwords : ModifierWords modifiers input rest) : rest.length < input.length := by
  induction hwords with
  | classWord hword => exact hword.length_lt
  | modifier hword htrivia _ ih =>
      have hfirst := hword.length_lt
      have hnext := htrivia.length_le
      omega

theorem Clauses.length_le {nickname parent : Option String} {input body : List Char}
    (hclauses : Clauses nickname parent input body) : body.length ≤ input.length := by
  induction hclauses with
  | none htrivia => exact htrivia.length_le
  | nickname htrivia hword htriviaName hname _ ih =>
      have hlengths := And.intro htrivia.length_le htriviaName.length_le
      have hwords := And.intro hword.length_lt hname.length_lt
      omega
  | inherits htrivia hword htriviaName hname _ ih =>
      have hlengths := And.intro htrivia.length_le htriviaName.length_le
      have hwords := And.intro hword.length_lt hname.length_lt
      omega

theorem Body.length_lt {input rest : List Char} (hbody : Body input rest) :
    rest.length < input.length := by
  induction hbody with
  | close => exact Nat.lt_succ_self _
  | nested _ _ ihInner ihMore =>
      simp only [List.length_cons]
      omega
  | comment hcomment _ ih => exact Nat.lt_trans ih hcomment.length_lt
  | literal hliteral _ ih =>
      obtain ⟨-, -⟩ := hliteral
      simp only [List.length_append, List.length_cons]
      omega
  | other _ _ ih => exact Nat.lt_succ_of_lt ih

theorem Item.length_lt {parcel : Option String} {decl : Decl} {start rest : List Char}
    (hitem : Item parcel decl start rest) : rest.length < start.length := by
  cases hitem with
  | parcelStatement hword htrivia hname hend =>
      have hfirst := hword.length_lt
      have hnext := htrivia.length_le
      have hwordName := hname.length_lt
      have hsemicolon := hend.length_le
      simp only [List.length_cons] at hsemicolon
      omega
  | cBlock hword hupTo => exact Nat.lt_of_le_of_lt hupTo.length_le hword.length_lt
  | classHeader hwords _ htrivia hname hclauses hbody =>
      have hfirst := hwords.length_lt
      have hnext := htrivia.length_le
      have hclassName := hname.length_lt
      have hbrace := hclauses.length_le
      have hend := hbody.length_lt
      simp only [List.length_cons] at hbrace
      omega

/-! ## Whole texts -/

/-- An item is read first, and then what is behind it. -/
theorem readItems_of_item {bound : Nat} {parcel : Option String} {decl : Decl}
    {input start rest : List Char} (htrivia : Trivia input start)
    (hitem : Item parcel decl start rest) :
    readItems (bound + 1) parcel input =
      (readItems bound (decl.parcelAfter parcel) rest).map (decl :: ·) := by
  obtain ⟨first, afterFirst, hfirst⟩ := hitem.starts
  have hnonempty : start.isEmpty = false := by
    obtain ⟨char, others, -, rfl, -⟩ := hfirst.starts
    rfl
  simp only [readItems, htrivia.skipTrivia_eq, hfirst.skipTrivia_eq, hnonempty,
    readItem_eq_ok_iff.mpr hitem, bind, Except.bind]
  cases readItems bound (decl.parcelAfter parcel) rest <;> rfl

/-- Items are read up to the end of the text just when they are an outline. -/
theorem readItems_eq_ok_iff {bound : Nat} {parcel : Option String} {decls : List Decl}
    {input : List Char} (hbound : input.length ≤ bound) :
    readItems bound parcel input = .ok decls ↔ Outline parcel decls input := by
  induction bound generalizing parcel decls input with
  | zero =>
      obtain rfl := List.length_eq_zero_iff.mp (Nat.le_zero.mp hbound)
      constructor
      · intro hread
        cases hread
        exact .none .none
      · intro houtline
        cases houtline with
        | none => rfl
        | item htrivia hitem =>
            have hlength := htrivia.length_le
            have hshorter := hitem.length_lt
            simp only [List.length_nil] at hlength
            omega
  | succ bound ih =>
      constructor
      · intro hread
        obtain ⟨start, hskip, hmore⟩ := ok_of_bind hread
        have htrivia := trivia_of_skipTrivia hskip
        have hlength := htrivia.length_le
        split at hmore
        · next hempty =>
          cases hmore
          obtain rfl := List.isEmpty_iff.mp hempty
          exact .none htrivia
        · obtain ⟨⟨decl, rest⟩, hitem, hmore⟩ := ok_of_bind hmore
          have hitem := readItem_eq_ok_iff.mp hitem
          have hshorter := hitem.length_lt
          obtain ⟨further, hfurther, hpair⟩ := ok_of_bind hmore
          cases hpair
          exact .item htrivia hitem ((ih (by omega)).mp hfurther)
      · intro houtline
        cases houtline with
        | none htrivia =>
            have hend : skipTrivia [] = .ok [] := rfl
            rw [readItems, htrivia.skipTrivia_eq, hend]
            rfl
        | @item _ decl further _ start rest htrivia hitem hmore =>
            have hlength := htrivia.length_le
            have hshorter := hitem.length_lt
            have hfurther := (ih (show rest.length ≤ bound by omega)).mpr hmore
            rw [readItems_of_item htrivia hitem, hfurther]
            rfl

/-- A text is scanned just when it is an outline. -/
theorem scan_eq_ok_iff {text : String} {decls : List Decl} :
    scan text = .ok decls ↔ Outline none decls text.toList := by
  rw [← readItems_eq_ok_iff (Nat.le_refl _), scan]
  cases readItems text.toList.length none text.toList <;> simp [Except.mapError]

/-- `parcel` is named by the last parcel statement among the declarations. -/
def NamedLast (parcel : String) (decls : List Decl) : Prop :=
  ∃ earlier later, decls = earlier ++ .parcelStatement parcel :: later ∧
    ∀ name, .parcelStatement name ∉ later

/-- Every class is in the parcel that the nearest statement before it names. -/
def InNearestParcels (decls : List Decl) : Prop :=
  ∀ before parcel header after, decls = before ++ .classHeader parcel header :: after →
    NamedLast parcel before

/-- A class belongs to the nearest parcel that is named before it. -/
theorem Outline.nearest {parcel : Option String} {decls : List Decl} {input : List Char}
    (houtline : Outline parcel decls input) {before after : List Decl} {named : String}
    {header : ClassHeader} (hdecls : decls = before ++ .classHeader named header :: after) :
    NamedLast named before ∨
      parcel = some named ∧ ∀ name, .parcelStatement name ∉ before := by
  induction houtline generalizing before with
  | none => simp at hdecls
  | @item parcel decl decls input start rest htrivia hitem hmore ih =>
      cases before with
      | nil =>
          obtain ⟨rfl, -⟩ := List.cons.inj hdecls
          cases hitem
          exact .inr ⟨rfl, by simp⟩
      | cons first before =>
          obtain ⟨rfl, hmoreDecls⟩ := List.cons.inj hdecls
          rcases ih hmoreDecls with ⟨earlier, later, rfl, hlater⟩ | ⟨hparcel, hnone⟩
          · exact .inl ⟨decl :: earlier, later, rfl, hlater⟩
          · cases hitem with
            | parcelStatement =>
                cases hparcel
                exact .inl ⟨[], before, rfl, hnone⟩
            | cBlock => exact .inr ⟨hparcel, by simpa using hnone⟩
            | classHeader => exact .inr ⟨hparcel, by simpa using hnone⟩

/-- A header is scanned into just the declarations that its outline shows, with
every class in the parcel of the nearest statement before it. -/
theorem scan_reads_outlines (text : String) (decls : List Decl) :
    scan text = .ok decls ↔
      Outline none decls text.toList ∧ InNearestParcels decls := by
  rw [scan_eq_ok_iff, iff_self_and]
  intro houtline before parcel header after hdecls
  rcases houtline.nearest hdecls with hlast | ⟨hnone, -⟩
  · exact hlast
  · cases hnone

end Parcels.Header
