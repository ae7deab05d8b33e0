import Parcels.FileSystem.Failure
import Parcels.Json
import Parcels.Name

/-!
# Errors of the model

Every way in which a parcel spec, a host data file, a declaration or a set of
parcels and classes can be wrong.  Each cause belongs to one kind and has one
message.
-/

namespace Parcels

inductive ErrorKind where
  | parse
  | identityConflict
  | unresolvedReference
  | versionIncompatible
  | invalidSymbol
  | cyclicDependency
  | invalidInheritance
  | internal
  deriving DecidableEq, Repr

inductive Error where
  | unreadable (path : String) (failure : FileSystem.Failure)
  | invalidJson (path : String)
  | notAHash (path : String)
  | wrongType (key : String) (expected : Json.Kind) (path : String)
  | unknownKey (key path : String)
  | missingKey (key path : String)
  | invalidPrereqValue (name path : String)
  | malformed (fault : Malformed)
  /-- A malformed name or version found in the file at `path`. -/
  | malformedIn (path : String) (fault : Malformed)
  | duplicateParcelName (name : String)
  | duplicateParcelNickname (nickname : String)
  | duplicateClassName (name : String)
  | classSymbolConflict (first second : String)
  | classNicknameConflict (first second : String)
  | unresolvedPrereq (name requiredBy : String)
  | unresolvedParent (parent child : String)
  | unknownParcel (name path : String)
  | unknownHostClass (name path : String)
  | versionTooLow (name requiredBy found required : String)
  | majorVersionTooHigh (name requiredBy found required : String)
  | invalidSymbol (symbol : String)
  | finalParent (child parent : String)
  | prereqCycle (names : List String)
  | inheritanceCycle (name : String)
  /-- The sorted classes of a parcel do not match its class list in number,
  although none is missing. -/
  | unbalancedSort (parcel : String) (expected visited : Nat)
  deriving DecidableEq, Repr

namespace Error

def kind : Error → ErrorKind
  | .unreadable .. | .invalidJson .. | .notAHash .. | .wrongType ..
  | .unknownKey .. | .missingKey .. | .invalidPrereqValue ..
  | .malformed .. | .malformedIn .. => .parse
  | .duplicateParcelName .. | .duplicateParcelNickname ..
  | .duplicateClassName .. | .classSymbolConflict ..
  | .classNicknameConflict .. => .identityConflict
  | .unresolvedPrereq .. | .unresolvedParent .. | .unknownParcel ..
  | .unknownHostClass .. => .unresolvedReference
  | .versionTooLow .. | .majorVersionTooHigh .. => .versionIncompatible
  | .invalidSymbol .. => .invalidSymbol
  | .prereqCycle .. | .inheritanceCycle .. => .cyclicDependency
  | .finalParent .. => .invalidInheritance
  | .unbalancedSort .. => .internal

/-- The file a message is about, in the form most messages show it. -/
def inFile (path : String) : String :=
  " (filepath '" ++ path ++ "')"

def message : Error → String
  | .unreadable path failure =>
      "Can't read '" ++ path ++ "': " ++ failure.message
  | .invalidJson path =>
      "Invalid JSON parcel definition in '" ++ path ++ "'"
  | .notAHash path =>
      "Parcel definition must be a hash in '" ++ path ++ "'"
  | .wrongType key expected path =>
      "'" ++ key ++ "' must be a " ++ expected.label ++ inFile path
  | .unknownKey key path =>
      "Unrecognized key: '" ++ key ++ "'" ++ inFile path
  | .missingKey key path =>
      "Missing required key '" ++ key ++ "'" ++ inFile path
  | .invalidPrereqValue name path =>
      "Invalid prereq value for '" ++ name ++ "'" ++ inFile path
  | .malformed fault => fault.message
  | .malformedIn path fault => fault.message ++ inFile path
  | .duplicateParcelName name =>
      "Parcel '" ++ name ++ "' already registered"
  | .duplicateParcelNickname nickname =>
      "Parcel with nickname '" ++ nickname ++ "' already registered"
  | .duplicateClassName name => "Two classes with name " ++ name
  | .classSymbolConflict first second =>
      "Class name conflict between " ++ first ++ " and " ++ second
  | .classNicknameConflict first second =>
      "Class nickname conflict between " ++ first ++ " and " ++ second
  | .unresolvedPrereq name requiredBy =>
      "Parcel '" ++ name ++ "' required by '" ++ requiredBy ++ "' not found"
  | .unresolvedParent parent child =>
      "Parent class " ++ parent ++ " of " ++ child ++ " not found"
  | .unknownParcel name path =>
      "Parcel '" ++ name ++ "' not found" ++ inFile path
  | .unknownHostClass name path =>
      "Class '" ++ name ++ "' in '" ++ path ++ "' not found"
  | .versionTooLow name requiredBy found required =>
      "Version " ++ found ++ " of parcel '" ++ name ++ "' required by '" ++
        requiredBy ++ "' is lower than required version " ++ required
  | .majorVersionTooHigh name requiredBy found required =>
      "Major version " ++ found ++ " of parcel '" ++ name ++
        "' required by '" ++ requiredBy ++
        "' is higher than required version " ++ required
  | .invalidSymbol symbol => "Invalid prefix in symbol '" ++ symbol ++ "'"
  | .finalParent child parent =>
      "Class " ++ child ++ " inherits from final class " ++ parent
  | .prereqCycle names =>
      "Prerequisite cycle: " ++ " -> ".intercalate names
  | .inheritanceCycle name => "Inheritance cycle involving class " ++ name
  | .unbalancedSort parcel expected visited =>
      "Internal error sorting classes of parcel '" ++ parcel ++
        "': expected " ++ toString expected ++ ", visited " ++
        toString visited

end Error

end Parcels
