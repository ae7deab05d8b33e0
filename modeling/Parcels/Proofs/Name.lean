import Parcels.Name

/-!
# The form of names

Which texts are identifiers and which are names of classes, apart from how they
are checked.  No identifier holds a colon, so a name has one set of components,
and the last of them is what follows its last separator.
-/

namespace Parcels.Name

/-- A letter or an underscore, and then letters, digits and underscores. -/
def Identifier (chars : List Char) : Prop :=
  ∃ first others, chars = first :: others ∧ (first.isAlpha = true ∨ first = '_') ∧
    ∀ char ∈ others, char.isAlphanum = true ∨ char = '_'

/-- An identifier that starts with an upper-case letter. -/
structure Component (chars : List Char) : Prop where
  identifier : Identifier chars
  upper : ∀ first ∈ chars.head?, first.isUpper = true

/-- One or more components joined with `::`. -/
structure ClassName (text : String) (components : List (List Char)) : Prop where
  joined : text.toList = [':', ':'].intercalate components
  nonempty : components ≠ []
  component : ∀ chars ∈ components, Component chars

variable {text : String}

theorem isIdentifierChars_iff {chars : List Char} :
    isIdentifierChars chars = true ↔ Identifier chars := by
  cases chars with
  | nil => simp [isIdentifierChars, Identifier]
  | cons first others =>
      simp only [isIdentifierChars, isWordChar, Bool.and_eq_true, Bool.or_eq_true,
        beq_iff_eq, List.all_eq_true]
      constructor
      · intro hchars
        exact ⟨first, others, rfl, hchars⟩
      · intro hidentifier
        obtain ⟨_, _, heq, hchars⟩ := hidentifier
        obtain ⟨rfl, rfl⟩ := List.cons.inj heq
        exact hchars

theorem isClassComponent_iff {chars : List Char} :
    isClassComponent chars = true ↔ Component chars := by
  rw [isClassComponent, Bool.and_eq_true, isIdentifierChars_iff]
  cases chars with
  | nil =>
      refine iff_of_false (by simp) ?_
      intro hcomponent
      obtain ⟨first, others, hchars, _⟩ := hcomponent.identifier
      cases hchars
  | cons first others =>
      constructor
      · intro hchars
        exact ⟨hchars.2, by simpa using hchars.1⟩
      · intro hcomponent
        exact ⟨by simpa using hcomponent.upper, hcomponent.identifier⟩

theorem Identifier.not_colon {chars : List Char} (hidentifier : Identifier chars) :
    ':' ∉ chars := by
  obtain ⟨first, others, rfl, hfirst, hothers⟩ := hidentifier
  intro hcolon
  rcases List.mem_cons.mp hcolon with rfl | hcolon
  · exact absurd hfirst (by decide)
  · exact absurd (hothers ':' hcolon) (by decide)

/-! ## Splitting and joining -/

theorem splitQualified_of_not_colon {chars : List Char} (hplain : ':' ∉ chars) :
    splitQualified chars = [chars] := by
  induction chars with
  | nil => rfl
  | cons first others ih =>
      obtain ⟨hfirst, hothers⟩ := List.ne_and_not_mem_of_not_mem_cons hplain
      simp [splitQualified, Ne.symm hfirst, ih hothers]

theorem splitQualified_append {chars rest : List Char} (hplain : ':' ∉ chars) :
    splitQualified (chars ++ ':' :: ':' :: rest) = chars :: splitQualified rest := by
  induction chars with
  | nil => rfl
  | cons first others ih =>
      obtain ⟨hfirst, hothers⟩ := List.ne_and_not_mem_of_not_mem_cons hplain
      simp [splitQualified, Ne.symm hfirst, ih hothers]

theorem splitQualified_intercalate {components : List (List Char)}
    (hnonempty : components ≠ []) (hplain : ∀ chars ∈ components, ':' ∉ chars) :
    splitQualified ([':', ':'].intercalate components) = components := by
  induction components with
  | nil => exact absurd rfl hnonempty
  | cons first others ih =>
      obtain ⟨hfirst, hothers⟩ := List.forall_mem_cons.mp hplain
      cases others with
      | nil => simpa using splitQualified_of_not_colon hfirst
      | cons second rest =>
          rw [List.intercalate_cons_cons, List.append_assoc]
          exact (splitQualified_append hfirst).trans
            (congrArg (first :: ·) (ih (List.cons_ne_nil _ _) hothers))

theorem splitQualified_ne_nil (chars : List Char) : splitQualified chars ≠ [] := by
  fun_induction splitQualified chars <;> simp_all

/-- Nothing is lost when a name is split. -/
theorem intercalate_splitQualified (chars : List Char) :
    [':', ':'].intercalate (splitQualified chars) = chars := by
  fun_induction splitQualified chars with
  | case1 => rfl
  | case2 rest ih =>
      obtain ⟨first, others, hsplit⟩ := List.exists_cons_of_ne_nil (splitQualified_ne_nil rest)
      rw [hsplit, List.intercalate_cons_cons, ← hsplit, ih]
      rfl
  | case3 char rest _ ih =>
      obtain ⟨first, others, hsplit⟩ := List.exists_cons_of_ne_nil (splitQualified_ne_nil rest)
      rw [hsplit] at ih ⊢
      cases others with
      | nil => simpa using ih
      | cons second others =>
          rw [List.intercalate_cons_cons] at ih
          simpa [List.intercalate_cons_cons] using ih

/-! ## Names of classes -/

theorem isIdentifier_iff : isIdentifier text = true ↔ Identifier text.toList :=
  isIdentifierChars_iff

theorem ClassName.splitQualified_eq {components : List (List Char)}
    (hname : ClassName text components) : splitQualified text.toList = components := by
  rw [hname.joined]
  apply splitQualified_intercalate hname.nonempty
  intro chars hchars
  exact (hname.component chars hchars).identifier.not_colon

/-- The check of a class name passes just when the name has components. -/
theorem isClassName_iff : isClassName text = true ↔ ∃ components, ClassName text components := by
  simp only [isClassName, List.all_eq_true, isClassComponent_iff]
  constructor
  · intro hcomponents
    exact ⟨splitQualified text.toList, (intercalate_splitQualified _).symm,
      splitQualified_ne_nil _, hcomponents⟩
  · intro hname
    obtain ⟨components, hname⟩ := hname
    rw [hname.splitQualified_eq]
    exact hname.component

theorem ClassName.lastComponent_eq {components : List (List Char)}
    (hname : ClassName text components) :
    (lastComponent text).toList = components.getLast hname.nonempty := by
  rw [lastComponent, hname.splitQualified_eq, String.toList_ofList,
    List.getLastD_eq_getLast?, List.getLast?_eq_some_getLast hname.nonempty,
    Option.getD_some]

/-! ## Upper and lower case -/

theorem toNat_toUpper (char : Char) :
    char.toUpper.toNat =
      if 97 ≤ char.toNat ∧ char.toNat ≤ 122 then char.toNat - 32 else char.toNat := by
  unfold Char.toUpper
  by_cases hlower : 97 ≤ char.toNat ∧ char.toNat ≤ 122
  · rw [dif_pos (show 'a'.val ≤ char.val ∧ char.val ≤ 'z'.val from hlower), if_pos hlower]
    change (char.val + ('A'.val - 'a'.val)).toNat = char.val.toNat - 32
    have hvalue : 97 ≤ char.val.toNat ∧ char.val.toNat ≤ 122 := hlower
    have hshift : ('A'.val - 'a'.val).toNat = 4294967264 := by decide
    rw [UInt32.toNat_add, hshift]
    omega
  · rw [dif_neg (show ¬ ('a'.val ≤ char.val ∧ char.val ≤ 'z'.val) from hlower), if_neg hlower]

theorem toNat_toLower (char : Char) :
    char.toLower.toNat =
      if 65 ≤ char.toNat ∧ char.toNat ≤ 90 then char.toNat + 32 else char.toNat := by
  unfold Char.toLower
  by_cases hupper : 65 ≤ char.toNat ∧ char.toNat ≤ 90
  · rw [dif_pos (show char.val ≥ 'A'.val ∧ char.val ≤ 'Z'.val from hupper), if_pos hupper]
    change (char.val + ('a'.val - 'A'.val)).toNat = char.val.toNat + 32
    have hvalue : 65 ≤ char.val.toNat ∧ char.val.toNat ≤ 90 := hupper
    have hshift : ('a'.val - 'A'.val).toNat = 32 := by decide
    rw [UInt32.toNat_add, hshift]
    omega
  · rw [dif_neg (show ¬ (char.val ≥ 'A'.val ∧ char.val ≤ 'Z'.val) from hupper), if_neg hupper]

end Parcels.Name
