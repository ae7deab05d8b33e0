import Parcels.CommandLine

/-!
# The program

Loads the directories that the options name into a file system, runs the
command line on it, and prints what it leaves behind.
-/

namespace Parcels.Program

open Parcels.FileSystem

def nanoseconds (time : IO.FS.SystemTime) : Int :=
  time.sec * 1000000000 + time.nsec.toNat

def readContents (place : String) : IO Contents := do
  try
    match String.fromUTF8? (← IO.FS.readBinFile place) with
    | some text => return .text text
    | none => return .undecodable
  catch _ => return .undecodable

/-- Everything at an absolute place, or nothing if nothing is there. -/
partial def load? (place : String) : IO (Option Node) := do
  let path := (← IO.currentDir) / place
  try
    let modified := nanoseconds (← path.metadata).modified
    if ← path.isDir then
      let entries ← path.readDir
      let children ← entries.toList.filterMapM fun entry => do
        let child ← load? (place ++ "/" ++ entry.fileName)
        return child.map (entry.fileName, ·)
      return some (.directory children modified)
    else return some (.file (← readContents place) modified)
  catch _ => return none

def absolute (names : List RawText) : String :=
  "/" ++ "/".intercalate (names.map RawText.shown)

/-- Put a file, or a directory without its entries, where it is. -/
def mark (files : FileSystem) (names : List RawText) : IO FileSystem := do
  let path := (← IO.currentDir) / absolute names
  try
    let modified := nanoseconds (← path.metadata).modified
    if ← path.isDir then
      return files.makeDirectory modified ⟨absolute names⟩
    else
      return files.writeFile modified ⟨absolute names⟩ .undecodable modified
  catch _ => return files

/-- Put what is at a path, and every directory on the way to it, where it is.
A `..` on the way leads back to the directory above. -/
def load (files : FileSystem) (path : Path) : IO FileSystem := do
  let mut loaded := files
  let mut names : List RawText := []
  for name in files.location path do
    if name = ".." then names := names.dropLast
    else
      names := names ++ [name]
      loaded ← mark loaded names
  match ← load? (absolute names) with
  | none => return loaded
  | some node =>
      return { loaded with
        root := Node.update 0 (fun _ => node) names (some loaded.root) }

/-- The part of the system that the options are about. -/
def snapshot (options : Options) : IO FileSystem := do
  let here : Path := ⟨(← IO.currentDir).toString⟩
  let start : FileSystem := {}
  let files := { start with workingDirectory := start.location here }
  (options.sourceDirs ++ options.includeDirs ++ [options.dest]).foldlM load files

def run (arguments : List String) : IO UInt32 := do
  let files ← match Options.parse arguments with
    | .ok options => if options.help then pure {} else snapshot options
    | .error _ => pure {}
  let outcome := CommandLine.execute files arguments
  IO.print outcome.stdout
  IO.eprint outcome.stderr
  return outcome.exitCode.toUInt32

end Parcels.Program

def main (arguments : List String) : IO UInt32 :=
  Parcels.Program.run arguments
