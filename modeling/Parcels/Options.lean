import Parcels.Path

/-!
# Command-line options

Options are read from left to right; the first wrong one is reported.  A source
dir is required unless help is asked for.
-/

namespace Parcels

structure Options where
  sourceDirs : List Path := []
  includeDirs : List Path := []
  dest : Path := ⟨"autogen"⟩
  /-- The language whose host data files are to be read. -/
  host : Option String := none
  forceModified : Bool := false
  verbose : Bool := false
  help : Bool := false
  deriving Inhabited

inductive UsageError where
  | unknownOption (argument : String)
  | missingValue (option : String)
  | missingSource
  deriving DecidableEq, Repr

def UsageError.message : UsageError → String
  | .unknownOption argument => "unknown option '" ++ argument ++ "'"
  | .missingValue option => option ++ " needs a value"
  | .missingSource => "at least one --source=<dir> is required"

namespace Options

def usage : String :=
  "Usage: cfcc --source=<dir> [options]\n" ++
  "\n" ++
  "Options:\n" ++
  "  --source=<dir>    Source directory (repeatable)\n" ++
  "  --include=<dir>   Include directory of installed parcels (repeatable)\n" ++
  "  --dest=<dir>      Output directory for generated code (default: autogen)\n" ++
  "  --host=<lang>     Load parcel_<lang>.json host data next to each .cfp file\n" ++
  "  --modified        Treat every file as modified\n" ++
  "  -v, --verbose     Print symbols and parents of every class\n" ++
  "  -h, --help        Show this message"

/-- The options that take a value after an equals sign. -/
inductive Setting where
  | source
  | includeDir
  | dest
  | host
  deriving DecidableEq, Repr

def Setting.all : List Setting :=
  [.source, .includeDir, .dest, .host]

def Setting.flag : Setting → String
  | .source => "--source"
  | .includeDir => "--include"
  | .dest => "--dest"
  | .host => "--host"

/-- The value of a setting in an argument of the form `flag=value`. -/
def Setting.value? (setting : Setting) (argument : String) : Option String :=
  ((setting.flag ++ "=").toList.isPrefixOf? argument.toList).map String.ofList

def set (options : Options) (value : String) : Setting → Options
  | .source =>
      { options with sourceDirs := options.sourceDirs ++ [.mk value] }
  | .includeDir =>
      { options with includeDirs := options.includeDirs ++ [.mk value] }
  | .dest => { options with dest := .mk value }
  | .host => { options with host := some value }

def readFlag (options : Options) (argument : String) :
    Except UsageError Options :=
  if argument = "--modified" then .ok { options with forceModified := true }
  else if argument = "-v" ∨ argument = "--verbose" then
    .ok { options with verbose := true }
  else if argument = "-h" ∨ argument = "--help" then
    .ok { options with help := true }
  else .error (.unknownOption argument)

def readArgument (options : Options) (argument : String) :
    Except UsageError Options :=
  let found := Setting.all.findSome? fun setting =>
    (setting.value? argument).map (setting, ·)
  match found with
  | some (setting, value) =>
      if value = "" then .error (.missingValue setting.flag)
      else .ok (options.set value setting)
  | none => options.readFlag argument

def parse (arguments : List String) : Except UsageError Options := do
  let options ← arguments.foldlM readArgument {}
  if options.sourceDirs.isEmpty && !options.help then .error .missingSource
  else .ok options

end Options

end Parcels
