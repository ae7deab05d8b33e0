/-!
# Names

A parcel is named by ASCII letters, a class by identifiers joined with `::`
that each start with an upper-case letter, a class nickname by one identifier.
Names and versions that break these rules are `Malformed`.
-/

namespace Parcels

/-- What a name stands for in a declaration. -/
inductive NameRole where
  | parcelName
  | parcelNickname
  | prereqName
  | className
  | parentClassName
  | classNickname
  deriving DecidableEq, Repr

def NameRole.label : NameRole → String
  | .parcelName => "parcel name"
  | .parcelNickname => "parcel nickname"
  | .prereqName => "prereq name"
  | .className => "class name"
  | .parentClassName => "parent class name"
  | .classNickname => "class nickname"

/-- A name or a version text that does not have the form it must have. -/
inductive Malformed where
  | name (role : NameRole) (value : String)
  | version (text : String)
  deriving DecidableEq, Repr

def Malformed.message : Malformed → String
  | .name role value => "Invalid " ++ role.label ++ ": '" ++ value ++ "'"
  | .version text => "Invalid version string: '" ++ text ++ "'"

namespace Name

/-- Parcels, prereqs and parcel nicknames consist of ASCII letters only. -/
def isParcelName (text : String) : Bool :=
  !text.toList.isEmpty && text.toList.all Char.isAlpha

def isWordChar (char : Char) : Bool :=
  char.isAlphanum || char == '_'

def isIdentifierChars : List Char → Bool
  | [] => false
  | first :: others => (first.isAlpha || first == '_') && others.all isWordChar

def isIdentifier (text : String) : Bool :=
  isIdentifierChars text.toList

/-- The parts of a text between its separators `::`, from the left. -/
def splitQualified : List Char → List (List Char)
  | [] => [[]]
  | ':' :: ':' :: rest => [] :: splitQualified rest
  | char :: rest => (splitQualified rest).modifyHead (char :: ·)

def isClassComponent (component : List Char) : Bool :=
  component.head?.any Char.isUpper && isIdentifierChars component

def isClassName (text : String) : Bool :=
  (splitQualified text.toList).all isClassComponent

/-- The part of a class name after the last `::`. -/
def lastComponent (text : String) : String :=
  String.ofList ((splitQualified text.toList).getLastD [])

/-- Upper and lower case of the ASCII letters; other characters stay. -/
def upperCase (text : String) : String :=
  String.ofList (text.toList.map Char.toUpper)

def lowerCase (text : String) : String :=
  String.ofList (text.toList.map Char.toLower)

end Name

end Parcels
