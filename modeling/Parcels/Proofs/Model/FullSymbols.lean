import Mathlib.Data.List.TakeDrop
import Mathlib.Data.List.TakeWhile
import Parcels.Proofs.Model.PrereqClosure
import Parcels.Proofs.Name

/-!
# Full symbols

A full symbol is the nickname of a parcel in lower case, an underscore and a
struct symbol, which starts with an upper-case letter.  So it can be taken
apart again, up to the case of the nickname.  Nicknames are unique as they are
written, but parcels whose nicknames differ in case alone share their full
symbols.
-/

namespace Parcels

/-! ## Taking symbols apart -/

namespace Name

theorem isUpper_iff {char : Char} :
    char.isUpper = true ↔ 65 ≤ char.toNat ∧ char.toNat ≤ 90 :=
  decide_eq_true_iff

theorem isUpper_toLower (char : Char) : char.toLower.isUpper = false := by
  rw [← Bool.not_eq_true, isUpper_iff, toNat_toLower]
  split <;> omega

theorem not_isUpper_of_mem_lowerCase {text : String} {char : Char}
    (hchar : char ∈ (lowerCase text).toList) : char.isUpper = false := by
  simp only [lowerCase, String.toList_ofList, List.mem_map] at hchar
  obtain ⟨original, -, rfl⟩ := hchar
  exact isUpper_toLower original

theorem lastComponent_starts {text : String} (hname : isClassName text = true) :
    ∃ first others, (lastComponent text).toList = first :: others ∧
      first.isUpper = true := by
  obtain ⟨components, hname⟩ := isClassName_iff.mp hname
  have hlast := hname.component _ (List.getLast_mem hname.nonempty)
  obtain ⟨first, others, hchars, _⟩ := hlast.identifier
  exact ⟨first, others, hname.lastComponent_eq.trans hchars,
    hlast.upper first (by simp [hchars])⟩

end Name

theorem Parcel.lowerPrefix_eq (parcel : Parcel) :
    parcel.lowerPrefix = Name.lowerCase parcel.nickname ++ "_" := by
  simp [lowerPrefix, camelPrefix, Name.lowerCase]

theorem Parcel.lowerPrefix_eq_iff {left right : Parcel} :
    left.lowerPrefix = right.lowerPrefix ↔
      Name.lowerCase left.nickname = Name.lowerCase right.nickname := by
  rw [lowerPrefix_eq, lowerPrefix_eq, String.append_left_inj]

namespace Model

variable {model after : Model}

/-! ## Names of classes -/

/-- Every class has the name of a class. -/
def WellNamed (model : Model) : Prop :=
  ∀ aClass ∈ model.classes, Name.isClassName aClass.name = true

theorem WellNamed.effect {call : Call} (hnamed : model.WellNamed)
    (heffect : Effect model call after) : after.WellNamed := by
  cases heffect with
  | registered _ hregister =>
      rw [(register_eq_ok hregister).2.1]
      exact hnamed
  | declared hid hadd =>
      obtain ⟨_, hwellFormed, hdeclares⟩ := addClass_eq_ok hid hadd
      rw [WellNamed, hdeclares.classes_eq]
      intro aClass hclass
      rcases Array.mem_push.mp hclass with hold | rfl
      · exact hnamed aClass hold
      · exact hwellFormed.name
  | checked =>
      obtain ⟨checks, hafter⟩ := checkPrereqs_leaves model _
      rw [hafter]
      exact hnamed
  | linked hlinks =>
      rw [hlinks.frame]
      exact hnamed
  | sorted hlinks _ =>
      rw [hlinks.frame]
      exact hnamed
  | noted => exact hnamed
  | reaped => simp [WellNamed]

theorem Arises.wellNamed (hreachable : model.Reachable) : model.WellNamed := by
  induction hreachable with
  | empty => simp [WellNamed]
  | call _ hvalid ih => exact ih.effect (Call.effect hvalid)

theorem WellNamed.className {member : ClassId} (hnamed : model.WellNamed)
    (hmember : member ∈ model.classIds) :
    Name.isClassName (model.className member) = true := by
  refine hnamed _ ?_
  rw [← Array.mem_toList_iff]
  exact List.mem_of_getElem? (getElem?_classes hmember)

theorem WellNamed.structSymbol_starts {member : ClassId} (hnamed : model.WellNamed)
    (hmember : member ∈ model.classIds) :
    ∃ first others, (model.classAt member).structSymbol.toList = first :: others ∧
      first.isUpper = true :=
  Name.lastComponent_starts (hnamed.className hmember)

/-! ## Symbols of classes -/

/-- The lower-case stem of the parcel that owns a class. -/
def stem (model : Model) (member : ClassId) : String :=
  (model.parcelAt (model.owner member)).lowerPrefix

theorem not_isUpper_of_mem_lowerPrefix {parcel : Parcel} {char : Char}
    (hchar : char ∈ parcel.lowerPrefix.toList) : (!char.isUpper) = true := by
  rw [Parcel.lowerPrefix] at hchar
  rw [Name.not_isUpper_of_mem_lowerCase hchar]
  rfl

/-- The stem of a full symbol ends where the struct symbol starts. -/
theorem WellNamed.span_fullStructSymbol (hnamed : model.WellNamed) {member : ClassId}
    (hmember : member ∈ model.classIds) :
    (model.fullStructSymbol member).toList.span (fun char => !char.isUpper) =
      ((model.stem member).toList, (model.classAt member).structSymbol.toList) := by
  obtain ⟨first, others, hshort, hfirst⟩ := hnamed.structSymbol_starts hmember
  have hstem : ∀ char ∈ (model.stem member).toList, (!char.isUpper) = true :=
    fun char hchar => not_isUpper_of_mem_lowerPrefix hchar
  rw [fullStructSymbol, String.toList_append, List.span_eq_takeWhile_dropWhile,
    ← stem, List.takeWhile_append_of_pos hstem, List.dropWhile_append_of_pos hstem, hshort]
  simp [hfirst]

theorem WellNamed.fullStructSymbol_eq_iff (hnamed : model.WellNamed) {left right : ClassId}
    (hleft : left ∈ model.classIds) (hright : right ∈ model.classIds) :
    model.fullStructSymbol left = model.fullStructSymbol right ↔
      model.stem left = model.stem right ∧
        (model.classAt left).structSymbol = (model.classAt right).structSymbol := by
  constructor
  · intro hsame
    have hspan := hnamed.span_fullStructSymbol hleft
    rw [hsame, hnamed.span_fullStructSymbol hright] at hspan
    obtain ⟨hstem, hshort⟩ := Prod.mk.inj hspan
    exact ⟨String.toList_inj.mp hstem.symm, String.toList_inj.mp hshort.symm⟩
  · rintro ⟨hstem, hshort⟩
    rw [fullStructSymbol, fullStructSymbol, ← stem, ← stem, hstem, hshort]

theorem Partitioned.eq_of_structSymbol_eq {id : ParcelId} {left right : ClassId}
    (hpartitioned : model.Partitioned) (hleft : left ∈ model.classesOf id)
    (hright : right ∈ model.classesOf id)
    (hsymbol : (model.classAt left).structSymbol = (model.classAt right).structSymbol) :
    left = right := by
  by_contra hne
  exact (clash?_eq_none_iff.mp
    (hpartitioned.differ id left hleft right hright hne)).2.1 hsymbol

theorem withStructSymbol?_eq_some {id : ParcelId} {symbol : String} {found : ClassId}
    (hfound : model.withStructSymbol? id symbol = some found) :
    found ∈ model.classesOf id ∧ (model.classAt found).structSymbol = symbol :=
  ⟨List.mem_of_find?_eq_some hfound, by simpa using List.find?_some hfound⟩

theorem isSome_withStructSymbol? {id : ParcelId} {member : ClassId}
    (hmember : member ∈ model.classesOf id) :
    (model.withStructSymbol? id (model.classAt member).structSymbol).isSome := by
  rw [withStructSymbol?, List.find?_isSome]
  exact ⟨member, hmember, by simp⟩

/-! ## Looking up full symbols -/

/-- A parcel's own classes and those of its direct prereqs can be seen from it. -/
def Sees (model : Model) (id : ParcelId) (member : ClassId) : Prop :=
  member ∈ model.classIds ∧ model.owner member ∈ id :: model.prereqParcels id

def FullSymbolsDiffer (model : Model) : Prop :=
  ∀ left ∈ model.classIds, ∀ right ∈ model.classIds, left ≠ right →
    model.fullStructSymbol left ≠ model.fullStructSymbol right

/-- A full symbol leads to its class wherever the class can be seen. -/
def FullSymbolsFind (model : Model) : Prop :=
  ∀ id ∈ model.parcelIds, ∀ member, model.Sees id member →
    model.findFullSymbol id (model.fullStructSymbol member) = .ok (some member)

/-- Two parcels whose nicknames differ in case alone have no struct symbol in
common. -/
def CaseApart (model : Model) : Prop :=
  ∀ left ∈ model.parcelIds, ∀ right ∈ model.parcelIds, left ≠ right →
    Name.lowerCase (model.parcelAt left).nickname =
      Name.lowerCase (model.parcelAt right).nickname →
    ∀ first ∈ model.classesOf left, ∀ second ∈ model.classesOf right,
      (model.classAt first).structSymbol ≠ (model.classAt second).structSymbol

/-- The lookup goes through the parcels with the stem of the symbol. -/
theorem WellNamed.findFullSymbol_eq (hnamed : model.WellNamed) {member : ClassId}
    (hmember : member ∈ model.classIds) (id : ParcelId) :
    model.findFullSymbol id (model.fullStructSymbol member) =
      .ok (((id :: model.prereqParcels id).filter fun candidate =>
        (model.parcelAt candidate).lowerPrefix == model.stem member).findSome?
          (model.withStructSymbol? · (model.classAt member).structSymbol)) := by
  obtain ⟨first, others, hshort, -⟩ := hnamed.structSymbol_starts hmember
  have hnonempty : (model.classAt member).structSymbol.toList.isEmpty = false := by
    rw [hshort]
    rfl
  simp only [findFullSymbol, hnamed.span_fullStructSymbol hmember, hnonempty,
    String.ofList_toList]
  rfl

theorem Sound.findFullSymbol_finds (hsound : model.Sound) (hnamed : model.WellNamed)
    {id : ParcelId} {member : ClassId} (hsees : model.Sees id member) :
    ∃ found, model.findFullSymbol id (model.fullStructSymbol member) = .ok (some found) ∧
      model.Sees id found ∧
      model.fullStructSymbol found = model.fullStructSymbol member := by
  obtain ⟨hmember, howner⟩ := hsees
  have hlisted := hsound.partitioned.mem_classesOf_owner hmember
  rw [hnamed.findFullSymbol_eq hmember id]
  generalize howners : (id :: model.prereqParcels id).filter (fun candidate =>
    (model.parcelAt candidate).lowerPrefix == model.stem member) = owners
  have hmem : model.owner member ∈ owners := by
    rw [← howners]
    exact List.mem_filter.mpr ⟨howner, by simp [stem]⟩
  cases hfound : owners.findSome?
      (model.withStructSymbol? · (model.classAt member).structSymbol) with
  | none =>
      have hnone := List.findSome?_eq_none_iff.mp hfound _ hmem
      have hsome := isSome_withStructSymbol? hlisted
      simp [hnone] at hsome
  | some found =>
      obtain ⟨candidate, hcandidate, hlookup⟩ := List.exists_of_findSome?_eq_some hfound
      obtain ⟨hclass, hsymbol⟩ := withStructSymbol?_eq_some hlookup
      rw [← howners] at hcandidate
      obtain ⟨hvisible, hstem⟩ := List.mem_filter.mp hcandidate
      have hknown := hsound.partitioned.mem_classIds_of_mem hclass
      have hcandidate : model.owner found = candidate := hsound.partitioned.owner_of_mem hclass
      refine ⟨found, rfl, ⟨hknown, hcandidate ▸ hvisible⟩, ?_⟩
      refine (hnamed.fullStructSymbol_eq_iff hknown hmember).mpr ⟨?_, hsymbol⟩
      rw [stem, hcandidate]
      exact beq_iff_eq.mp hstem

theorem Sound.fullSymbolsDiffer_iff (hsound : model.Sound) (hnamed : model.WellNamed) :
    model.FullSymbolsDiffer ↔ model.CaseApart := by
  have hpartitioned := hsound.partitioned
  constructor
  · intro hdiffer left hleft right hright hne hnicknames first hfirst second hsecond hsymbol
    have howners := And.intro (hpartitioned.owner_of_mem hfirst)
      (hpartitioned.owner_of_mem hsecond)
    have hknown := hpartitioned.mem_classIds_of_mem hfirst
    have hknown' := hpartitioned.mem_classIds_of_mem hsecond
    refine hdiffer first hknown second hknown' ?_
      ((hnamed.fullStructSymbol_eq_iff hknown hknown').mpr ⟨?_, hsymbol⟩)
    · rintro rfl
      exact hne (howners.1.symm.trans howners.2)
    · rw [stem, stem, howners.1, howners.2]
      exact Parcel.lowerPrefix_eq_iff.mpr hnicknames
  · intro hapart left hleft right hright hne hfull
    obtain ⟨hstem, hsymbol⟩ := (hnamed.fullStructSymbol_eq_iff hleft hright).mp hfull
    have hlisted := hpartitioned.mem_classesOf_owner hleft
    have hlisted' := hpartitioned.mem_classesOf_owner hright
    by_cases hsame : model.owner left = model.owner right
    · rw [← hsame] at hlisted'
      exact hne (hpartitioned.eq_of_structSymbol_eq hlisted hlisted' hsymbol)
    · exact hapart _ (hpartitioned.owner_known left hleft) _
        (hpartitioned.owner_known right hright) hsame
        (Parcel.lowerPrefix_eq_iff.mp hstem) left hlisted right hlisted' hsymbol

/-- Full symbols tell classes apart just when no two parcels whose nicknames
differ in case alone share a struct symbol.  In any case the full symbol of a
class leads to a class that can be seen and has that full symbol. -/
theorem fullSymbols_tell_apart_iff (hreachable : model.Reachable) :
    (model.FullSymbolsDiffer ∧ model.FullSymbolsFind ↔ model.CaseApart) ∧
      ∀ id member, model.Sees id member →
        ∃ found, model.findFullSymbol id (model.fullStructSymbol member) = .ok (some found) ∧
          model.Sees id found ∧
          model.fullStructSymbol found = model.fullStructSymbol member := by
  have hsound := hreachable.sound
  have hnamed := hreachable.wellNamed
  have hfinds := fun id member (hsees : model.Sees id member) =>
    hsound.findFullSymbol_finds hnamed hsees
  refine ⟨?_, hfinds⟩
  rw [hsound.fullSymbolsDiffer_iff hnamed, and_iff_left_iff_imp]
  intro hapart id _ member hsees
  obtain ⟨found, hlookup, hfound, hfull⟩ := hfinds id member hsees
  obtain rfl : found = member := by
    by_contra hne
    exact (hsound.fullSymbolsDiffer_iff hnamed).mpr hapart found hfound.1 member hsees.1
      hne hfull
  exact hlookup

/-! ## Two nicknames that differ in case -/

/-- `Ant`, whose nickname is `Ab`, and `Bee`, whose nickname is `AB`, with a
class `Foo` each. -/
def twoCases : Model :=
  leftBy ((Call.addClass ⟨1⟩ { name := "Foo" }).run
    (leftBy ((Call.addClass ⟨0⟩ { name := "Foo" }).run
      (leftBy ((Call.register { bee with nickname := "AB" }).run
        (leftBy ((Call.register { ant with nickname := "Ab" }).run {})))))))

theorem twoCases_reachable : twoCases.Reachable := by
  have hant : Parcel.WellFormed { ant with nickname := "Ab" } :=
    ⟨ant_wellFormed.name, by decide, ant_wellFormed.prereqs, ant_wellFormed.installed⟩
  have hbee : Parcel.WellFormed { bee with nickname := "AB" } :=
    ⟨bee_wellFormed.name, by decide, bee_wellFormed.prereqs, bee_wellFormed.installed⟩
  exact .call (.call (.call (.call .empty hant) hbee) (mem_parcelIds.mpr (by decide)))
    (mem_parcelIds.mpr (by decide))

theorem twoCases_same_symbol :
    (⟨0⟩ ∈ twoCases.classIds ∧ ⟨1⟩ ∈ twoCases.classIds) ∧
      twoCases.fullStructSymbol ⟨0⟩ = "ab_Foo" ∧
      twoCases.fullStructSymbol ⟨1⟩ = "ab_Foo" := by
  decide

theorem twoCases_share_symbols :
    twoCases.Reachable ∧ ¬ twoCases.CaseApart ∧ ∃ found,
      twoCases.findFullSymbol ⟨1⟩ (twoCases.fullStructSymbol ⟨0⟩) = .ok (some found) ∧
        twoCases.fullStructSymbol found = "ab_Foo" := by
  obtain ⟨⟨hfirst, hsecond⟩, hant, hbee⟩ := twoCases_same_symbol
  obtain ⟨hiff, hfinds⟩ := fullSymbols_tell_apart_iff twoCases_reachable
  refine ⟨twoCases_reachable, fun hapart => ?_, ?_⟩
  · exact (hiff.mpr hapart).1 ⟨0⟩ hfirst ⟨1⟩ hsecond (by decide) (hant.trans hbee.symm)
  · obtain ⟨found, hlookup, -, hfull⟩ := hfinds ⟨1⟩ ⟨0⟩ ⟨hfirst, by decide⟩
    exact ⟨found, hlookup, hfull.trans hant⟩

/-- Parcels whose nicknames differ only in case share full symbols. -/
theorem fullSymbols_not_tell_apart :
    ¬ ∀ model : Model, model.Reachable → model.FullSymbolsDiffer ∧ model.FullSymbolsFind := by
  intro htellApart
  obtain ⟨⟨hfirst, hsecond⟩, hant, hbee⟩ := twoCases_same_symbol
  exact (htellApart twoCases twoCases_reachable).1 ⟨0⟩ hfirst ⟨1⟩ hsecond (by decide)
    (hant.trans hbee.symm)

end Model

end Parcels
