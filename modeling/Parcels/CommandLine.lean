import Parcels.Hierarchy.Build
import Parcels.Hierarchy.Staleness
import Parcels.Options
import Parcels.Report

/-!
# The command line

A run builds the hierarchy that the options describe, reads host data, marks
stale files and reports.  The program prints the report, or an error.
-/

namespace Parcels.CommandLine

/-- What a report says of a class of the model. -/
def classLine (model : Model) (id : ClassId) : ClassLine :=
  { name := model.className id
    parcel := (model.parcelAt (model.owner id)).name
    fullStructSymbol := model.fullStructSymbol id
    parent := (model.parent? id).map model.className
    included := model.isIncluded id }

def emptyHierarchy (options : Options) : Hierarchy :=
  let sources := options.sourceDirs.foldl Hierarchy.addSourceDir
    { dest := options.dest }
  options.includeDirs.foldl Hierarchy.addIncludeDir sources

def prepare (files : FileSystem) (options : Options) :
    Hierarchy.Step Unit := do
  Hierarchy.build files
  match options.host with
  | none => return
  | some language => Hierarchy.readHostFiles files language

def report (files : FileSystem) (options : Options)
    (workspace : Hierarchy.Workspace) : Report :=
  let marked := workspace.hierarchy.markModified workspace.model
    files.modified? options.forceModified
  { classes := workspace.model.orderedClasses.map (classLine workspace.model)
    modified := marked.modifiedPaths }

def run (files : FileSystem) (options : Options) :
    Except Hierarchy.Error Report :=
  match prepare files options ⟨emptyHierarchy options, {}⟩ with
  | .ok _ workspace => .ok (report files options workspace)
  | .error error _ => .error error

/-- What the program leaves behind. -/
structure Outcome where
  exitCode : UInt8
  stdout : String := ""
  stderr : String := ""
  deriving DecidableEq, Repr

def execute (files : FileSystem) (arguments : List String) : Outcome :=
  match Options.parse arguments with
  | .error error =>
      { exitCode := 2
        stderr := "error: " ++ error.message ++ "\n\n" ++ Options.usage ++ "\n" }
  | .ok options =>
      if options.help then { exitCode := 0, stdout := Options.usage ++ "\n" }
      else
        match run files options with
        | .ok report => { exitCode := 0, stdout := report.render options.verbose }
        | .error error =>
            { exitCode := 1, stderr := "error: " ++ error.message ++ "\n" }

end Parcels.CommandLine
