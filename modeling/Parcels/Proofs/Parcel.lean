import Parcels.Parcel

/-!
# Well-formed parcels

The names of a parcel and of its prereqs have the form that parcel names must
have, and it is not to be installed when it is included.
-/

namespace Parcels

/-! ## What the constructors check -/

/-- Text that may name a parcel. -/
structure Name.Letters (text : String) : Prop where
  nonempty : text ≠ ""
  letters : ∀ char ∈ text.toList, char.isAlpha = true

theorem Name.isParcelName_iff {text : String} : isParcelName text = true ↔ Letters text := by
  have hparts : Letters text ↔ text ≠ "" ∧ ∀ char ∈ text.toList, char.isAlpha = true :=
    ⟨fun ⟨hnonempty, hletters⟩ => ⟨hnonempty, hletters⟩,
      fun ⟨hnonempty, hletters⟩ => ⟨hnonempty, hletters⟩⟩
  simp [isParcelName, hparts]

/-- A prereq needs a name of letters only. -/
theorem Prereq.make_eq_ok_iff {name : String} {atLeast : Option Version} {prereq : Prereq} :
    make name atLeast = .ok prereq ↔ Name.Letters name ∧ prereq = ⟨name, atLeast⟩ := by
  rw [make, ← Name.isParcelName_iff]
  split <;> simp [*, eq_comm]

/-- A parcel needs a name and a nickname of letters only. -/
theorem Parcel.make_eq_ok_iff {name : String} {nickname : Option String}
    {version : Option Version} {included : Bool} {parcel : Parcel} :
    make name nickname version included = .ok parcel ↔
      Name.Letters name ∧ Name.Letters (nickname.getD name) ∧
        parcel =
          { name := name
            nickname := nickname.getD name
            version := version.getD .zero
            included := included
            installed := !included } := by
  rw [make, ← Name.isParcelName_iff, ← Name.isParcelName_iff]
  by_cases hname : Name.isParcelName name = true
  · by_cases hnickname : Name.isParcelName (nickname.getD name) = true
    · simp only [hname, hnickname, Bool.not_true, Bool.false_eq_true, if_false, true_and,
        Except.ok.injEq]
      exact eq_comm
    · simp [hname, hnickname]
  · simp [hname]

namespace Parcel

/-- Every prereq of a list names a parcel. -/
def NamesParcels (prereqs : List Prereq) : Prop :=
  ∀ prereq ∈ prereqs, Name.isParcelName prereq.name

/-- What the constructors of parcels check. -/
structure WellFormed (parcel : Parcel) : Prop where
  name : Name.isParcelName parcel.name
  nickname : Name.isParcelName parcel.nickname
  prereqs : NamesParcels parcel.prereqs
  installed : parcel.installed → parcel.included = false

end Parcel

end Parcels
