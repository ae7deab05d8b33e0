import Parcels.Proofs.Header.Words

/-!
# Where readings leave off

A reading goes on from place to place in a text.  What it leaves is an end of
that text, and so is what remains at the place of a fault.  So a fault has a
line of the text.
-/

namespace Parcels.Header

variable {Result Middle : Type} {text input : List Char}

/-- What a reading leaves, or what remains at its fault, is an end of the
text. -/
def LeavesEnd (text : List Char) (left : Result → List Char) :
    Except Fault Result → Prop
  | .ok result => left result <:+ text
  | .error fault => fault.remaining <:+ text

theorem LeavesEnd.bind {leftFirst : Middle → List Char} {left : Result → List Char}
    {first : Except Fault Middle} {second : Middle → Except Fault Result}
    (hfirst : LeavesEnd text leftFirst first)
    (hsecond : ∀ middle, leftFirst middle <:+ text → LeavesEnd text left (second middle)) :
    LeavesEnd text left (first >>= second) := by
  cases first with
  | ok middle => exact hsecond middle hfirst
  | error fault => exact hfirst

theorem suffix_of_cons {char : Char} (hinput : char :: input <:+ text) : input <:+ text :=
  (List.suffix_cons char input).trans hinput

/-! ## Trivia, words and class names -/

/-- Where a comment was opened the text has an end. -/
def Trivia.Mode.Within (text : List Char) : Trivia.Mode → Prop
  | .between => True
  | .lineComment => True
  | .blockComment opening => opening <:+ text

theorem Trivia.leavesEnd_skip {mode : Trivia.Mode} (hmode : mode.Within text)
    (hinput : input <:+ text) : LeavesEnd text id (Trivia.skip mode input) := by
  fun_induction Trivia.skip mode input with
  | case1 => exact hinput
  | case2 rest ih => exact ih trivial (suffix_of_cons (suffix_of_cons hinput))
  | case3 rest ih => exact ih hinput (suffix_of_cons (suffix_of_cons hinput))
  | case4 char rest _ _ _ ih => exact ih trivial (suffix_of_cons hinput)
  | case5 => exact hinput
  | case6 => exact hinput
  | case7 rest ih => exact ih trivial (suffix_of_cons hinput)
  | case8 char rest _ ih => exact ih trivial (suffix_of_cons hinput)
  | case9 opening => exact hmode
  | case10 opening rest ih => exact ih trivial (suffix_of_cons (suffix_of_cons hinput))
  | case11 opening char rest _ ih => exact ih hmode (suffix_of_cons hinput)

theorem leavesEnd_skipTrivia (hinput : input <:+ text) :
    LeavesEnd text id (skipTrivia input) :=
  Trivia.leavesEnd_skip trivial hinput

theorem word_suffix (hinput : input <:+ text) : (word input).2 <:+ text :=
  (List.dropWhile_suffix _).trans hinput

theorem leavesEnd_identifier (hinput : input <:+ text) :
    LeavesEnd text Prod.snd (identifier input) := by
  refine (leavesEnd_skipTrivia hinput).bind fun start hstart => ?_
  split
  · exact hstart
  · exact word_suffix hstart

theorem leavesEnd_nameTail (hinput : input <:+ text) :
    LeavesEnd text Prod.snd (nameTail input) := by
  fun_induction nameTail input with
  | case1 => exact hinput
  | case2 => exact List.nil_suffix
  | case3 first rest _ ih =>
      refine (ih ?_).bind fun _ hafter => hafter
      exact suffix_of_cons (suffix_of_cons (suffix_of_cons hinput))
  | case4 first rest _ => exact suffix_of_cons (suffix_of_cons hinput)
  | case5 char rest _ _ _ ih => exact (ih (suffix_of_cons hinput)).bind fun _ hafter => hafter
  | case6 => exact hinput

theorem leavesEnd_className (hinput : input <:+ text) :
    LeavesEnd text Prod.snd (className input) := by
  refine (leavesEnd_skipTrivia hinput).bind fun start hstart => ?_
  cases start with
  | nil => exact hstart
  | cons first rest =>
      dsimp only
      split
      · exact (leavesEnd_nameTail (suffix_of_cons hstart)).bind fun _ hafter => hafter
      · exact hstart

/-! ## Class headers -/

theorem leavesEnd_readModifiers {seen : Modifiers} {first : String} (hinput : input <:+ text) :
    LeavesEnd text Prod.snd (readModifiers seen first input) := by
  fun_induction readModifiers seen first input with
  | case1 => exact hinput
  | case2 => exact hinput
  | case3 => exact hinput
  | case4 _ _ _ _ _ _ _ ih =>
      exact (leavesEnd_identifier hinput).bind fun next hrest => ih next.1 next.2 hrest

theorem leavesEnd_readClauses {header : ClassHeader} (hinput : input <:+ text) :
    LeavesEnd text Prod.snd (readClauses header input) := by
  fun_induction readClauses header input with
  | case1 header input ihNickname ihInherits =>
      refine (leavesEnd_skipTrivia hinput).bind fun start hstart => ?_
      have hrest := word_suffix hstart
      split
      · exact hstart
      · dsimp only
        split
        · next hclause =>
          refine (leavesEnd_identifier hrest).bind fun nickname hafter => ?_
          exact ihNickname _ hclause nickname.1 nickname.2 hafter
        · split
          · next hclause =>
            refine (leavesEnd_className hrest).bind fun parent hafter => ?_
            exact ihInherits _ hclause parent.1 parent.2 hafter
          · split
            · exact hstart
            · exact hstart

/-! ## Class bodies and C blocks -/

/-- Where a comment or a literal was opened the text has an end. -/
def Body.Mode.Within (text : List Char) : Body.Mode → Prop
  | .code => True
  | .lineComment => True
  | .blockComment opening => opening <:+ text
  | .literal _ opening => opening <:+ text

theorem Body.leavesEnd_skip {opening : List Char} {mode : Body.Mode} {deeper : Nat}
    (hopening : opening <:+ text) (hmode : mode.Within text) (hinput : input <:+ text) :
    LeavesEnd text id (Body.skip opening mode deeper input) := by
  fun_induction Body.skip opening mode deeper input with
  | case1 | case10 => exact hopening
  | case5 => exact suffix_of_cons hinput
  | case13 | case16 | case17 | case18 => exact hmode
  | case2 deeper rest ih => exact ih trivial (suffix_of_cons (suffix_of_cons hinput))
  | case3 deeper rest ih => exact ih hinput (suffix_of_cons (suffix_of_cons hinput))
  | case7 deeper rest ih | case8 deeper rest ih => exact ih hinput (suffix_of_cons hinput)
  | case4 deeper rest ih | case6 deeper rest ih | case11 deeper rest ih =>
      exact ih trivial (suffix_of_cons hinput)
  | case9 _ _ _ _ _ _ _ _ _ _ ih => exact ih trivial (suffix_of_cons hinput)
  | case12 _ _ _ _ ih => exact ih trivial (suffix_of_cons hinput)
  | case14 _ _ _ ih => exact ih trivial (suffix_of_cons (suffix_of_cons hinput))
  | case15 _ _ _ _ _ ih => exact ih hmode (suffix_of_cons hinput)
  | case19 _ _ _ _ _ ih => exact ih hmode (suffix_of_cons (suffix_of_cons hinput))
  | case20 _ _ _ _ _ _ _ ih => exact ih trivial (suffix_of_cons hinput)
  | case21 _ _ _ _ _ _ _ _ _ ih => exact ih hmode (suffix_of_cons hinput)

theorem leavesEnd_skipBody (hinput : input <:+ text) : LeavesEnd text id (skipBody input) :=
  Body.leavesEnd_skip hinput trivial ((List.tail_suffix input).trans hinput)

theorem suffix_of_splitAtMarker? {marker before after : List Char} (hmarker : marker ≠ [])
    (hsplit : splitAtMarker? marker input = some (before, after)) (hinput : input <:+ text) :
    after <:+ text := by
  have hupTo := (splitAtMarker?_eq_some_iff hmarker).mp hsplit
  exact List.IsSuffix.trans ⟨before ++ marker, hupTo.split.symm⟩ hinput

/-! ## Items -/

theorem leavesEnd_readClass {parcel : Option String} {start : List Char} {first : String}
    (hstart : start <:+ text) (hinput : input <:+ text) :
    LeavesEnd text Prod.snd (readClass parcel start first input) := by
  refine (leavesEnd_readModifiers hinput).bind fun modifiers hwords => ?_
  cases parcel with
  | none => exact hstart
  | some parcel =>
      refine (leavesEnd_className hwords).bind fun name hname => ?_
      refine (leavesEnd_readClauses hname).bind fun header hbody => ?_
      exact (leavesEnd_skipBody hbody).bind fun rest hrest => hrest

theorem leavesEnd_readParcelStatement (hinput : input <:+ text) :
    LeavesEnd text Prod.snd (readParcelStatement input) := by
  refine (leavesEnd_identifier hinput).bind fun name hname => ?_
  refine (leavesEnd_skipTrivia hname).bind fun rest hrest => ?_
  split
  · exact suffix_of_cons hrest
  · exact hrest

theorem leavesEnd_readItem {parcel : Option String} (hinput : input <:+ text) :
    LeavesEnd text Prod.snd (readItem parcel input) := by
  have hrest := word_suffix hinput
  unfold readItem
  dsimp only
  split
  · exact leavesEnd_readParcelStatement hrest
  · split
    · split
      · next hsplit => exact suffix_of_splitAtMarker? (by decide) hsplit hrest
      · exact hinput
    · split
      · exact hinput
      · exact leavesEnd_readClass hinput hrest

/-- Whatever is wrong in a text, what remains there is an end of it. -/
theorem leavesEnd_readItems {bound : Nat} {parcel : Option String} (hinput : input <:+ text) :
    LeavesEnd text (fun _ => []) (readItems bound parcel input) := by
  induction bound generalizing parcel input with
  | zero => exact List.nil_suffix
  | succ bound ih =>
      refine (leavesEnd_skipTrivia hinput).bind fun start hstart => ?_
      split
      · exact List.nil_suffix
      · refine (leavesEnd_readItem hstart).bind fun item hrest => ?_
        exact (ih hrest).bind fun _ hend => hend

/-- A fault has no more line feeds behind it than the text has. -/
theorem lineFeeds_remaining_le {bound : Nat} {parcel : Option String} {fault : Fault}
    (hfault : readItems bound parcel input = .error fault) :
    lineFeeds fault.remaining ≤ lineFeeds input := by
  have hends : LeavesEnd input (fun _ => []) (readItems bound parcel input) :=
    leavesEnd_readItems (List.suffix_refl input)
  rw [hfault] at hends
  exact hends.sublist.count_le _

end Parcels.Header
