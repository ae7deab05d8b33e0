import Parcels.Name
import Parcels.Parcel

/-!
# Classes

A class header gives a name, perhaps a nickname and a parent class name, and a
set of modifiers.  A class is a header that has joined a parcel; its symbols
are made of the parcel's nickname and the last component of its name.
-/

namespace Parcels

/-- The place of a parcel in registration order. -/
structure ParcelId where
  index : Nat
  deriving DecidableEq, Inhabited, Repr

/-- The place of a class in declaration order. -/
structure ClassId where
  index : Nat
  deriving DecidableEq, Inhabited, Repr

/-! ## Modifiers -/

inductive Modifier where
  | publicClass
  | finalClass
  | inertClass
  | abstractClass
  deriving DecidableEq, Repr

namespace Modifier

def all : List Modifier :=
  [.publicClass, .finalClass, .inertClass, .abstractClass]

def word : Modifier → String
  | .publicClass => "public"
  | .finalClass => "final"
  | .inertClass => "inert"
  | .abstractClass => "abstract"

def ofWord? (word : String) : Option Modifier :=
  all.find? fun modifier => modifier.word == word

end Modifier

/-- A set of modifiers. -/
structure Modifiers where
  isPublic : Bool := false
  isFinal : Bool := false
  isInert : Bool := false
  isAbstract : Bool := false
  deriving DecidableEq, Inhabited, Repr

namespace Modifiers

def contains (modifiers : Modifiers) : Modifier → Bool
  | .publicClass => modifiers.isPublic
  | .finalClass => modifiers.isFinal
  | .inertClass => modifiers.isInert
  | .abstractClass => modifiers.isAbstract

def insert (modifiers : Modifiers) : Modifier → Modifiers
  | .publicClass => { modifiers with isPublic := true }
  | .finalClass => { modifiers with isFinal := true }
  | .inertClass => { modifiers with isInert := true }
  | .abstractClass => { modifiers with isAbstract := true }

def toList (modifiers : Modifiers) : List Modifier :=
  Modifier.all.filter modifiers.contains

/-- How many modifiers are not in the set. -/
def missing (modifiers : Modifiers) : Nat :=
  (Modifier.all.filter fun modifier => !modifiers.contains modifier).length

theorem contains_insert (modifiers : Modifiers) (added modifier : Modifier) :
    (modifiers.insert added).contains modifier =
      (modifier == added || modifiers.contains modifier) := by
  cases added <;> cases modifier <;> rfl

theorem missing_insert_lt {modifiers : Modifiers} {added : Modifier}
    (hnew : modifiers.contains added = false) :
    (modifiers.insert added).missing < modifiers.missing := by
  obtain ⟨isPublic, isFinal, isInert, isAbstract⟩ := modifiers
  revert hnew
  cases added <;> cases isPublic <;> cases isFinal <;> cases isInert <;>
    cases isAbstract <;> decide

end Modifiers

/-! ## Headers and classes -/

/-- A class as it is declared, before it joins a parcel. -/
structure ClassHeader where
  name : String
  nickname : Option String := none
  parent : Option String := none
  modifiers : Modifiers := {}
  deriving DecidableEq, Inhabited, Repr

/-- A class of a registered parcel. -/
structure Class where
  id : ClassId
  parcel : ParcelId
  name : String
  nickname : String
  /-- The declared name of the parent class. -/
  parentName : Option String
  modifiers : Modifiers
  deriving Inhabited

/-- The last component of a class name; unique within a parcel. -/
def ClassHeader.structSymbol (header : ClassHeader) : String :=
  Name.lastComponent header.name

namespace Class

/-- The nickname defaults to the struct symbol. -/
def make (id : ClassId) (parcel : ParcelId) (header : ClassHeader) :
    Except Malformed Class :=
  if !Name.isClassName header.name then
    .error (.name .className header.name)
  else
    match header.parent.filter (!Name.isClassName ·) with
    | some parent => .error (.name .parentClassName parent)
    | none =>
        match header.nickname.filter (!Name.isIdentifier ·) with
        | some nickname => .error (.name .classNickname nickname)
        | none => .ok
            { id := id
              parcel := parcel
              name := header.name
              nickname := header.nickname.getD header.structSymbol
              parentName := header.parent
              modifiers := header.modifiers }

def structSymbol (aClass : Class) : String :=
  Name.lastComponent aClass.name

def shortVariable (aClass : Class) : String :=
  Name.upperCase aClass.structSymbol

/-- A final class may not be inherited from. -/
def isFinal (aClass : Class) : Bool :=
  aClass.modifiers.isFinal

end Class

end Parcels
