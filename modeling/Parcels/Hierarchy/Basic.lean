import Parcels.Header.Fault
import Parcels.Model.Basic

/-!
# Hierarchies

A hierarchy is built from source dirs, which hold what is being compiled, and
include dirs, which hold what is installed.  It knows every header that was
read, what is declared in it, and where the generated code goes.
-/

namespace Parcels

/-- A declaration of a header, found in the model. -/
inductive Block where
  | parcel (id : ParcelId)
  | member (id : ClassId)
  | cBlock (code : String)
  deriving DecidableEq, Repr

def Block.member? : Block → Option ClassId
  | .member id => some id
  | _ => none

/-- A header that was read. -/
structure SourceFile where
  path : Path
  /-- The path below its source or include dir, without extension. -/
  pathPart : Path
  included : Bool
  /-- The parcel of the first parcel statement. -/
  parcel : Option ParcelId
  blocks : List Block
  /-- Whether the code generated from the header must be written anew. -/
  modified : Bool := false
  deriving Inhabited

namespace SourceFile

/-- The classes declared in a file, in file order. -/
def classes (file : SourceFile) : List ClassId :=
  file.blocks.filterMap Block.member?

/-- The generated header. -/
def headerPath (file : SourceFile) (destination : Path) : Path :=
  destination.joinPath (file.pathPart.withExtension "h")

/-- The generated C source. -/
def cPath (file : SourceFile) (destination : Path) : Path :=
  destination.joinPath (file.pathPart.withExtension "c")

end SourceFile

structure Hierarchy where
  /-- The directory for generated code. -/
  dest : Path
  sourceDirs : List Path := []
  includeDirs : List Path := []
  files : Array SourceFile := #[]
  /-- The place in `files` of the file that declares a class, newest first. -/
  fileIndices : List (ClassId × Nat) := []
  deriving Inhabited

namespace Hierarchy

inductive Error where
  | model (error : Parcels.Error)
  | unreadable (path : String) (failure : FileSystem.Failure)
  | syntaxError (path : String) (error : Header.SyntaxError)
  | foundTwice (file first second : String)
  | sourceClassInIncludedParcel (name parcel : String)
  deriving DecidableEq, Repr

def Error.message : Error → String
  | .model error => error.message
  | .unreadable path failure =>
      "Can't read '" ++ path ++ "': " ++ failure.message
  | .syntaxError path error => error.message path
  | .foundTwice file first second =>
      "File " ++ file ++ " found twice in " ++ first ++ " and " ++ second
  | .sourceClassInIncludedParcel name parcel =>
      "Class " ++ name ++ " from source dir found in parcel " ++ parcel ++
        " from include dir"

/-- Where generated headers go. -/
def includeDest (hierarchy : Hierarchy) : Path :=
  hierarchy.dest.join "include"

/-- Where generated C sources go. -/
def sourceDest (hierarchy : Hierarchy) : Path :=
  hierarchy.dest.join "source"

def addNew (dirs : List Path) (dir : Path) : List Path :=
  if dirs.contains dir then dirs else dirs ++ [dir]

def addSourceDir (hierarchy : Hierarchy) (dir : Path) : Hierarchy :=
  { hierarchy with sourceDirs := addNew hierarchy.sourceDirs dir }

def addIncludeDir (hierarchy : Hierarchy) (dir : Path) : Hierarchy :=
  { hierarchy with includeDirs := addNew hierarchy.includeDirs dir }

/-- Source dirs, then include dirs, each with whether it is an include dir. -/
def allDirs (hierarchy : Hierarchy) : List (Path × Bool) :=
  hierarchy.sourceDirs.map (·, false) ++ hierarchy.includeDirs.map (·, true)

/-- The file that declares a class. -/
def fileOf? (hierarchy : Hierarchy) (id : ClassId) : Option SourceFile := do
  let index ← hierarchy.fileIndices.lookup id
  hierarchy.files[index]?

end Hierarchy

end Parcels
