import Parcels.Path

/-!
# Reports

The listing of a run: every class, parents first, and the files whose code
must be written anew.
-/

namespace Parcels

/-- What a report says of one class. -/
structure ClassLine where
  name : String
  parcel : String
  fullStructSymbol : String
  parent : Option String
  included : Bool
  deriving DecidableEq, Inhabited, Repr

structure Report where
  classes : List ClassLine := []
  modified : List Path := []
  deriving Inhabited

namespace ClassLine

def render (verbose : Bool) (line : ClassLine) : String :=
  if verbose then
    "  " ++ line.name ++ " [" ++ line.parcel ++ "] " ++
      line.fullStructSymbol ++
      (line.parent.elim "" fun parent => " inherits " ++ parent) ++
      (if line.included then " (included)" else "") ++ "\n"
  else "  " ++ line.name ++ "\n"

end ClassLine

namespace Report

def anyModified (report : Report) : Bool :=
  !report.modified.isEmpty

def renderModified (paths : List Path) : String :=
  if paths.isEmpty then "Everything up to date\n"
  else
    "Modified files (" ++ toString paths.length ++ "):\n" ++
      String.join (paths.map fun path => "  " ++ path.text ++ "\n")

def render (report : Report) (verbose : Bool) : String :=
  "Classes (" ++ toString report.classes.length ++ "):\n" ++
    String.join (report.classes.map (ClassLine.render verbose)) ++
    renderModified report.modified

end Report

end Parcels
