import Parcels.Proofs.Header.Faults
import Parcels.Proofs.Header.Outlines

/-!
# Headers joined at a line feed

A line feed ends every word and every line comment, so whatever a phrase takes
of a text it also takes when a line feed and more text follow.  The outline of
two headers that are joined at a line feed is therefore the outline of the
first and then that of the second, and a fault of the second is found on the
line to which the first has moved it.
-/

namespace Parcels.Header

variable {input rest : List Char}

/-! ## Phrases before a line feed -/

theorem head?_append_lineFeed (more : List Char) :
    (rest ++ '\n' :: more).head? = some (rest.head?.getD '\n') := by
  cases rest <;> rfl

theorem UpTo.append {marker text : List Char} (hupTo : UpTo marker text input rest)
    (more : List Char) : UpTo marker text (input ++ more) (rest ++ more) := by
  refine ⟨by rw [hupTo.split, List.append_assoc], fun earlier later hinput => ?_⟩
  by_contra hshorter
  have hsplit := congrArg List.length hupTo.split
  simp only [List.length_append] at hsplit
  have hinside : earlier ++ marker <+: input := by
    refine List.prefix_of_prefix_length_le ⟨later, hinput.symm⟩ (List.prefix_append ..) ?_
    rw [List.length_append]
    omega
  obtain ⟨after, hafter⟩ := hinside
  exact hshorter (hupTo.first earlier after hafter.symm)

theorem Comment.append (hcomment : Comment input rest) (more : List Char) :
    Comment (input ++ '\n' :: more) (rest ++ '\n' :: more) := by
  cases hcomment with
  | line honeLine hends =>
      rw [List.append_assoc]
      refine .line honeLine (.inr ?_)
      rw [head?_append_lineFeed]
      rcases hends with rfl | hfeed
      · rfl
      · rw [hfeed]
        rfl
  | block hupTo => exact .block (hupTo.append _)

theorem Trivia.append (htrivia : Trivia input rest) (more : List Char) :
    Trivia (input ++ '\n' :: more) (rest ++ '\n' :: more) := by
  induction htrivia with
  | none => exact .none
  | blank hblank _ ih => exact .blank hblank ih
  | comment hcomment _ ih => exact .comment (hcomment.append more) ih

theorem Word.append {text : String} (hword : Word text input rest) (more : List Char) :
    Word text (input ++ '\n' :: more) (rest ++ '\n' :: more) := by
  refine ⟨by rw [hword.split, List.append_assoc], hword.nonempty, hword.wordChars, ?_⟩
  intro char hchar
  rw [head?_append_lineFeed] at hchar
  cases hhead : rest.head? with
  | none =>
      obtain rfl : char = '\n' := by simpa [hhead, eq_comm] using hchar
      decide
  | some next =>
      obtain rfl : char = next := by simpa [hhead, eq_comm] using hchar
      exact hword.maximal char hhead

theorem ClassName.append {name : String} (hname : ClassName name input rest)
    (more : List Char) : ClassName name (input ++ '\n' :: more) (rest ++ '\n' :: more) := by
  induction hname with
  | word hword => exact .word (hword.append more)
  | qualified hword _ ih => exact .qualified (hword.append more) ih

theorem ModifierWords.append {modifiers : List Modifier}
    (hwords : ModifierWords modifiers input rest) (more : List Char) :
    ModifierWords modifiers (input ++ '\n' :: more) (rest ++ '\n' :: more) := by
  induction hwords with
  | classWord hword => exact .classWord (hword.append more)
  | modifier hword htrivia _ ih =>
      exact .modifier (hword.append more) (htrivia.append more) ih

theorem Clauses.append {nickname parent : Option String}
    (hclauses : Clauses nickname parent input rest) (more : List Char) :
    Clauses nickname parent (input ++ '\n' :: more) (rest ++ '\n' :: more) := by
  induction hclauses with
  | none htrivia => exact .none (htrivia.append more)
  | nickname htrivia hword htriviaName hname _ ih =>
      exact .nickname (htrivia.append more) (hword.append more) (htriviaName.append more)
        (hname.append more) ih
  | inherits htrivia hword htriviaName hname _ ih =>
      exact .inherits (htrivia.append more) (hword.append more) (htriviaName.append more)
        (hname.append more) ih

theorem Literal.append (hliteral : Literal input rest) (more : List Char) :
    Literal (input ++ more) (rest ++ more) := by
  obtain ⟨hisQuote, hbytes⟩ := hliteral
  rw [List.append_assoc]
  exact .literal hisQuote hbytes

/-- A slash at the end of a text opens no comment when a line feed follows. -/
theorem Opens.of_append {more : List Char} (hopens : Opens (input ++ '\n' :: more)) :
    Opens input := by
  match input with
  | [] => simp [Opens] at hopens
  | [char] => simpa [opens_iff] using hopens
  | char :: next :: input => simpa [opens_iff] using hopens

theorem Body.append (hbody : Body input rest) (more : List Char) :
    Body (input ++ '\n' :: more) (rest ++ '\n' :: more) := by
  induction hbody with
  | close => exact .close
  | nested _ _ ihInner ihMore => exact .nested ihInner ihMore
  | comment hcomment _ ih => exact .comment (hcomment.append more) ih
  | literal hliteral _ ih => exact .literal (hliteral.append _) ih
  | other hopens _ ih => exact .other (fun hmore => hopens hmore.of_append) ih

theorem Item.append {parcel : Option String} {decl : Decl}
    (hitem : Item parcel decl input rest) (more : List Char) :
    Item parcel decl (input ++ '\n' :: more) (rest ++ '\n' :: more) := by
  cases hitem with
  | parcelStatement hword htrivia hname hend =>
      exact .parcelStatement (hword.append more) (htrivia.append more) (hname.append more)
        (hend.append more)
  | cBlock hword hupTo => exact .cBlock (hword.append more) (hupTo.append _)
  | classHeader hwords hnodup htrivia hname hclauses hbody =>
      exact .classHeader (hwords.append more) hnodup (htrivia.append more) (hname.append more)
        (hclauses.append more) (hbody.append more)

/-! ## Readings of what follows -/

theorem readItems_nil (bound : Nat) (parcel : Option String) :
    readItems bound parcel [] = .ok [] := by
  cases bound <;> rfl

/-- A reading ends with its text and not with its bound. -/
theorem readItems_of_length_le {bound bound' : Nat} {parcel : Option String}
    (hbound : input.length ≤ bound) (hbound' : input.length ≤ bound') :
    readItems bound parcel input = readItems bound' parcel input := by
  induction bound generalizing bound' parcel input with
  | zero =>
      obtain rfl := List.length_eq_zero_iff.mp (Nat.le_zero.mp hbound)
      rw [readItems_nil, readItems_nil]
  | succ bound ih =>
      cases bound' with
      | zero =>
          obtain rfl := List.length_eq_zero_iff.mp (Nat.le_zero.mp hbound')
          rw [readItems_nil, readItems_nil]
      | succ bound' =>
          rw [readItems, readItems]
          cases hskip : skipTrivia input with
          | error fault => rfl
          | ok start =>
              have hlength := (trivia_of_skipTrivia hskip).length_le
              cases hread : readItem parcel start with
              | error fault => simp only [bind, Except.bind, hread]
              | ok item =>
                  have hshorter := (readItem_eq_ok_iff.mp hread).length_lt
                  have hmore := @ih item.2 bound' (item.1.parcelAfter parcel) (by omega)
                    (by omega)
                  simp only [bind, Except.bind, hread, hmore]

/-- Behind a text that is an outline the reader starts anew. -/
theorem Outline.readItems_append {parcel : Option String} {decls : List Decl}
    (houtline : Outline parcel decls input) {more : List Char} {bound : Nat}
    (hbound : (input ++ '\n' :: more).length ≤ bound) :
    readItems bound parcel (input ++ '\n' :: more) =
      (readItems bound (decls.foldl Decl.parcelAfter parcel) more).map (decls ++ ·) := by
  rw [List.length_append, List.length_cons] at hbound
  obtain ⟨bound, rfl⟩ : ∃ fewer, bound = fewer + 1 := ⟨bound - 1, by omega⟩
  induction houtline generalizing bound with
  | @none parcel input htrivia =>
      have hskip : skipTrivia (input ++ '\n' :: more) = skipTrivia more := by
        rw [(htrivia.append more).skipTrivia_eq, List.nil_append, skipTrivia_blank (by decide)]
      have hsame : readItems (bound + 1) parcel (input ++ '\n' :: more) =
          readItems (bound + 1) parcel more := by
        rw [readItems, readItems, hskip]
      rw [hsame, List.foldl_nil]
      cases readItems (bound + 1) parcel more <;> rfl
  | @item parcel decl decls input start rest htrivia hitem _ ih =>
      have hlength := htrivia.length_le
      have hshorter := hitem.length_lt
      obtain ⟨bound, rfl⟩ : ∃ fewer, bound = fewer + 1 := ⟨bound - 1, by omega⟩
      rw [readItems_of_item (htrivia.append more) (hitem.append more), ih bound (by omega),
        List.foldl_cons,
        @readItems_of_length_le more (bound + 1) (bound + 1 + 1) _ (by omega) (by omega)]
      cases readItems (bound + 1 + 1) (decls.foldl Decl.parcelAfter (decl.parcelAfter parcel)) more
        <;> rfl

/-! ## The parcel in effect -/

/-- Whatever a reading stops at, it is not a class that stands in no parcel. -/
def InSomeParcel {Result : Type} (outcome : Except Fault Result) : Prop :=
  ∀ fault, outcome = .error fault → fault.cause ≠ .classBeforeParcel

theorem readItem_of_inSomeParcel {start : List Char}
    (hread : InSomeParcel (readItem none start)) (parcel : Option String) :
    readItem parcel start = readItem none start := by
  unfold readItem at hread ⊢
  dsimp only at hread ⊢
  split
  · rfl
  · next hparcel =>
    split
    · rfl
    · next hblock =>
      split
      · rfl
      · next hempty =>
        rw [if_neg hparcel, if_neg hblock, if_neg hempty, readClass] at hread
        unfold readClass
        cases hmodifiers : readModifiers {} (word start).1 (word start).2 with
        | error fault => rfl
        | ok modifiers =>
            rw [hmodifiers] at hread
            exact absurd rfl (hread _ rfl)

theorem readItems_of_inSomeParcel {bound : Nat}
    (hread : InSomeParcel (readItems bound none input)) (parcel : Option String) :
    readItems bound parcel input = readItems bound none input := by
  induction bound generalizing parcel input with
  | zero => rfl
  | succ bound ih =>
      rw [readItems] at hread
      rw [readItems, readItems]
      cases hskip : skipTrivia input with
      | error fault => rfl
      | ok start =>
          by_cases hend : start.isEmpty = true
          · simp only [bind, Except.bind, hend, if_true]
          · simp only [hskip, bind, Except.bind, hend] at hread ⊢
            have hitem : InSomeParcel (readItem none start) := by
              intro fault hfault
              exact hread fault (by rw [hfault]; rfl)
            rw [readItem_of_inSomeParcel hitem parcel]
            cases hfound : readItem none start with
            | error fault => rfl
            | ok item =>
                have hmore : InSomeParcel (readItems bound (item.1.parcelAfter none) item.2) := by
                  intro fault hfault
                  exact hread fault (by simp [hfound, hfault])
                have hsame : readItems bound (item.1.parcelAfter parcel) item.2 =
                    readItems bound (item.1.parcelAfter none) item.2 := by
                  cases hdecl : item.1 with
                  | parcelStatement => rfl
                  | classHeader => exact ih (by rwa [hdecl] at hmore) parcel
                  | cBlock => exact ih (by rwa [hdecl] at hmore) parcel
                simp only [hsame]

/-- The second text is read in whatever parcel the first leaves in effect. -/
theorem readItems_joined {decls : List Decl} (houtline : Outline none decls input)
    {more : List Char} (hmore : InSomeParcel (readItems more.length none more)) :
    readItems (input ++ '\n' :: more).length none (input ++ '\n' :: more) =
      (readItems more.length none more).map (decls ++ ·) := by
  have hlength : more.length ≤ (input ++ '\n' :: more).length := by
    rw [List.length_append, List.length_cons]
    omega
  rw [houtline.readItems_append (Nat.le_refl _),
    readItems_of_length_le hlength (Nat.le_refl _), readItems_of_inSomeParcel hmore]

/-! ## Joined headers -/

theorem Fault.locate_append (fault : Fault) (input : List Char) {more : List Char}
    (hremaining : lineFeeds fault.remaining ≤ lineFeeds more) :
    fault.locate (input ++ '\n' :: more) =
      ⟨(fault.locate more).line + 1 + lineFeeds input, fault.cause⟩ := by
  have hfeeds : lineFeeds (input ++ '\n' :: more) = lineFeeds input + (lineFeeds more + 1) := by
    rw [lineFeeds, List.count_append, List.count_cons_self]
    rfl
  have hline : lineAt (input ++ '\n' :: more) fault.remaining =
      lineAt more fault.remaining + 1 + lineFeeds input := by
    rw [lineAt, lineAt, hfeeds]
    omega
  rw [locate, locate, hline]

theorem toList_joined (first second : String) :
    (first ++ "\n" ++ second).toList = first.toList ++ '\n' :: second.toList := by
  simp

/-- When two headers are joined at a line feed, the declarations of the second
follow those of the first, and a fault of the second is found as far down as
the first has lines.  A class that stands in no parcel in the second header may
stand in one of the first. -/
theorem scan_joined {first second : String} {decls : List Decl}
    (hfirst : scan first = .ok decls) :
    (∀ more, scan second = .ok more →
      scan (first ++ "\n" ++ second) = .ok (decls ++ more)) ∧
    ∀ error, scan second = .error error → error.cause ≠ .classBeforeParcel →
      scan (first ++ "\n" ++ second) =
        .error ⟨error.line + 1 + lineFeeds first.toList, error.cause⟩ := by
  have houtline := scan_eq_ok_iff.mp hfirst
  rw [scan, scan, toList_joined]
  cases hmore : readItems second.toList.length none second.toList with
  | ok more =>
      rw [readItems_joined houtline (by simp [InSomeParcel, hmore]), hmore]
      refine ⟨fun others hsecond => ?_, fun error hsecond => ?_⟩
      · cases hsecond
        rfl
      · cases hsecond
  | error fault =>
      refine ⟨fun others hsecond => ?_, fun error hsecond hcause => ?_⟩
      · cases hsecond
      · cases hsecond
        have hparcel : InSomeParcel (readItems second.toList.length none second.toList) := by
          intro other hother
          cases hmore.symm.trans hother
          exact hcause
        rw [readItems_joined houtline hparcel, hmore]
        exact congrArg Except.error (fault.locate_append _ (lineFeeds_remaining_le hmore))

/-- The comment that ends the farm does not reach the barn, whether the barn can
be read or not. -/
theorem farm_joined_with_barn :
    let farm := "parcel Farm;\nclass Cow \x7b\x7d\n// Hens next"
    let barn := "parcel Barn;\nclass Hen \x7b\x7d"
    let openBarn := "parcel Barn;\nclass Hen ["
    let cow := [.parcelStatement "Farm", .classHeader "Farm" { name := "Cow" }]
    let hen := [.parcelStatement "Barn", .classHeader "Barn" { name := "Hen" }]
    (scan farm = .ok cow ∧ scan barn = .ok hen ∧ scan openBarn = .error ⟨2, .expectedBrace⟩) ∧
      scan (farm ++ "\n" ++ barn) = .ok (cow ++ hen) ∧
      scan (farm ++ "\n" ++ openBarn) = .error ⟨5, .expectedBrace⟩ := by
  intro farm barn openBarn cow hen
  have hfarm : scan farm = .ok cow := by decide +kernel
  have hbarn : scan barn = .ok hen := by decide +kernel
  have hopen : scan openBarn = .error ⟨2, .expectedBrace⟩ := by decide +kernel
  have hlines : lineFeeds farm.toList = 2 := by decide +kernel
  have hfault := (scan_joined hfarm).2 _ hopen (by decide)
  rw [hlines] at hfault
  exact ⟨⟨hfarm, hbarn, hopen⟩, (scan_joined hfarm).1 hen hbarn, hfault⟩

end Parcels.Header
