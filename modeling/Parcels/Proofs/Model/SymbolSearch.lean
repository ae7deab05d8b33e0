import Mathlib.Data.List.Find
import Parcels.Proofs.Model.FullSymbols

/-!
# Looking full symbols up by their stems

The lookup of a full symbol cuts the symbol at its first upper-case letter and
tries the parcels with the stem alone.  Any text may be looked up, and more than
one parcel may have the stem, but the lookup gives what comparing the whole
symbol with every visible class in turn gives.
-/

namespace Parcels.Model

variable {model : Model} {id : ParcelId} {symbol : String}

/-- The first class with exactly this full symbol, in a parcel and then in its
direct prereqs as they are declared. -/
def searchFullSymbol? (model : Model) (id : ParcelId) (symbol : String) : Option ClassId :=
  (id :: model.prereqParcels id).findSome? fun visible =>
    (model.classesOf visible).find? fun member => model.fullStructSymbol member == symbol

/-! ## Cutting symbols -/

def stemOf (symbol : String) : String :=
  String.ofList (symbol.toList.takeWhile fun char => !char.isUpper)

def shortOf (symbol : String) : String :=
  String.ofList (symbol.toList.dropWhile fun char => !char.isUpper)

theorem stemOf_append_shortOf (symbol : String) : stemOf symbol ++ shortOf symbol = symbol := by
  rw [stemOf, shortOf, ← String.ofList_append, List.takeWhile_append_dropWhile,
    String.ofList_toList]

theorem dropWhile_not_isUpper_eq_nil_iff {chars : List Char} :
    chars.dropWhile (fun char => !char.isUpper) = [] ↔
      ∀ char ∈ chars, char.isUpper = false := by
  simp only [List.dropWhile_eq_nil_iff, Bool.not_eq_true']

theorem findFullSymbol_eq_error (hlower : ∀ char ∈ symbol.toList, char.isUpper = false) :
    model.findFullSymbol id symbol = .error (.invalidSymbol symbol) := by
  simp [findFullSymbol, List.span_eq_takeWhile_dropWhile,
    dropWhile_not_isUpper_eq_nil_iff.mpr hlower]

theorem findFullSymbol_eq_ok (hupper : ∃ char ∈ symbol.toList, char.isUpper = true) :
    model.findFullSymbol id symbol =
      .ok (((id :: model.prereqParcels id).filter fun candidate =>
        (model.parcelAt candidate).lowerPrefix == stemOf symbol).findSome?
          (model.withStructSymbol? · (shortOf symbol))) := by
  have hshort : (symbol.toList.dropWhile fun char => !char.isUpper).isEmpty = false := by
    rw [List.isEmpty_eq_false_iff, ne_eq, dropWhile_not_isUpper_eq_nil_iff]
    obtain ⟨char, hchar, hisUpper⟩ := hupper
    exact fun hlower => by simp [hlower char hchar] at hisUpper
  rw [findFullSymbol, List.span_eq_takeWhile_dropWhile]
  simp only [hshort]
  rfl

/-! ## Comparing whole symbols -/

/-- A class has a full symbol just when it has the short symbol that is left of it
and its parcel has the stem. -/
theorem WellNamed.fullStructSymbol_eq_text_iff (hnamed : model.WellNamed) {member : ClassId}
    (hmember : member ∈ model.classIds) :
    model.fullStructSymbol member = symbol ↔
      model.stem member = stemOf symbol ∧
        (model.classAt member).structSymbol = shortOf symbol := by
  constructor
  · rintro rfl
    have hspan := hnamed.span_fullStructSymbol hmember
    rw [List.span_eq_takeWhile_dropWhile] at hspan
    obtain ⟨hstem, hshort⟩ := Prod.mk.inj hspan
    rw [stemOf, shortOf, hstem, hshort, String.ofList_toList, String.ofList_toList]
    exact ⟨rfl, rfl⟩
  · rintro ⟨hstem, hshort⟩
    rw [fullStructSymbol, ← stem, hstem, hshort, stemOf_append_shortOf]

/-- In one parcel, the whole symbol finds what the short one finds if the stem is
that of the parcel, and otherwise nothing. -/
theorem Sound.find?_fullStructSymbol (hsound : model.Sound) (hnamed : model.WellNamed)
    (visible : ParcelId) :
    ((model.classesOf visible).find? fun member => model.fullStructSymbol member == symbol) =
      if (model.parcelAt visible).lowerPrefix == stemOf symbol then
        model.withStructSymbol? visible (shortOf symbol)
      else none := by
  have hpartitioned := hsound.partitioned
  have hstem : ∀ member ∈ model.classesOf visible,
      model.stem member = (model.parcelAt visible).lowerPrefix := fun member hmember => by
    rw [stem, hpartitioned.owner_of_mem hmember]
  have hiff : ∀ member ∈ model.classesOf visible, model.fullStructSymbol member = symbol ↔
      (model.parcelAt visible).lowerPrefix = stemOf symbol ∧
        (model.classAt member).structSymbol = shortOf symbol := fun member hmember => by
    rw [hnamed.fullStructSymbol_eq_text_iff (hpartitioned.mem_classIds_of_mem hmember),
      hstem member hmember]
  split
  case isTrue howner =>
    refine List.find?_congr fun member hmember => ?_
    rw [Bool.eq_iff_iff, beq_iff_eq, beq_iff_eq, hiff member hmember]
    exact and_iff_right (beq_iff_eq.mp howner)
  case isFalse hother =>
    refine List.find?_eq_none.mpr fun member hmember => ?_
    rw [beq_iff_eq, hiff member hmember]
    exact fun hboth => hother (beq_iff_eq.mpr hboth.1)

theorem findSome?_filter {α β : Type} (keep : α → Bool) (find : α → Option β) (all : List α) :
    (all.filter keep).findSome? find =
      all.findSome? fun each => if keep each then find each else none := by
  rw [← List.head?_filterMap, List.filterMap_filter, List.head?_filterMap]

/-- A text without upper-case letters is no full symbol, and any other text finds
the first class with that very symbol. -/
theorem findFullSymbol_searches (hreachable : model.Reachable) (id : ParcelId)
    (symbol : String) :
    (model.findFullSymbol id symbol = .error (.invalidSymbol symbol) ↔
      ∀ char ∈ symbol.toList, char.isUpper = false) ∧
    ((∃ char ∈ symbol.toList, char.isUpper = true) →
      model.findFullSymbol id symbol = .ok (model.searchFullSymbol? id symbol)) := by
  have hsearch : (∃ char ∈ symbol.toList, char.isUpper = true) →
      model.findFullSymbol id symbol = .ok (model.searchFullSymbol? id symbol) := by
    intro hupper
    rw [findFullSymbol_eq_ok hupper, findSome?_filter, searchFullSymbol?]
    simp only [hreachable.sound.find?_fullStructSymbol hreachable.wellNamed]
  refine ⟨⟨fun herror => ?_, findFullSymbol_eq_error⟩, hsearch⟩
  by_contra hupper
  have hexists : ∃ char ∈ symbol.toList, char.isUpper = true := by simpa using hupper
  simp [hsearch hexists] at herror

/-! ## A stem of two prereqs -/

/-- Declares `Bee` and then `Ant`, whose symbols both start with `ab_`. -/
def cat : Parcel :=
  { ant with
    name := "Cat"
    nickname := "Cat"
    prereqs := [⟨"Bee", none⟩, ⟨"Ant", none⟩] }

def catNest : Model :=
  leftBy ((Call.register cat).run twoCases)

theorem catNest_reachable : catNest.Reachable := by
  have hcat : cat.WellFormed :=
    { name := by decide
      nickname := by decide
      prereqs := by unfold Parcel.NamesParcels; decide
      installed := fun _ => rfl }
  exact .call twoCases_reachable hcat

/-- Both classes `Foo` have the symbol, and that of `Bee` comes first. -/
theorem catNest_searches :
    catNest.Reachable ∧
      catNest.findFullSymbol ⟨2⟩ "ab_foo" = .error (.invalidSymbol "ab_foo") ∧
      (∃ char ∈ "ab_Foo".toList, char.isUpper = true) ∧
      catNest.findFullSymbol ⟨2⟩ "ab_Foo" = .ok (some ⟨1⟩) := by
  have hsearches := findFullSymbol_searches catNest_reachable ⟨2⟩
  have hlower : ∀ char ∈ "ab_foo".toList, char.isUpper = false := by simp
  have hupper : ∃ char ∈ "ab_Foo".toList, char.isUpper = true :=
    ⟨'F', by decide, by decide⟩
  have hfound : catNest.searchFullSymbol? ⟨2⟩ "ab_Foo" = some ⟨1⟩ := by decide
  exact ⟨catNest_reachable, (hsearches "ab_foo").1.mpr hlower, hupper,
    ((hsearches "ab_Foo").2 hupper).trans (by rw [hfound])⟩

end Parcels.Model
