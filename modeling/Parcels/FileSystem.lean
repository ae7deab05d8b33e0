import Parcels.FileSystem.Failure
import Parcels.Path

/-!
# File systems

A file system is a tree of directories and files with a working directory in
it.  Paths are resolved as a system does it: every segment of a path, idle ones
included, is looked up in a directory, and what is too long is not looked for.
Times are whole numbers of any unit.
-/

namespace Parcels

open RawText (dot)

namespace FileSystem

inductive Contents where
  | text (text : String)
  /-- Bytes that are not UTF-8. -/
  | undecodable

inductive Node where
  | file (contents : Contents) (modified : Int)
  | directory (entries : List (RawText × Node)) (modified : Int)

def Node.modified : Node → Int
  | .file _ modified => modified
  | .directory _ modified => modified

def Node.isDirectory : Node → Bool
  | .file .. => false
  | .directory .. => true

def emptyDirectory (modified : Int) : Node :=
  .directory [] modified

/-- The longest name that the system takes, in bytes. -/
def nameLimit : Nat := 255

/-- The longest path that the system takes, in bytes. -/
def pathLimit : Nat := 4095

/-- Whether a path is short enough for the system. -/
def fits (path : Path) : Bool :=
  path.raw.length ≤ pathLimit

/-- Follow segments from a node; `above` are the directories it lies in,
innermost first. -/
def walk : (above : List Node) → Node → List RawText → Except Failure Node
  | _, node, [] => .ok node
  | _, .file .., _ :: _ => .error .notADirectory
  | above, .directory entries modified, segment :: rest =>
      if Path.isIdle segment then
        walk above (.directory entries modified) rest
      else if segment = [dot, dot] then
        match above with
        | [] => walk [] (.directory entries modified) rest
        | outer :: outermost => walk outermost outer rest
      else if nameLimit < segment.length then .error .nameTooLong
      else
        match entries.lookup segment with
        | none => .error .notFound
        | some child => walk (.directory entries modified :: above) child rest

/-- Replace the entry of a name, or add one. -/
def setEntry (name : RawText) (node : Node) :
    List (RawText × Node) → List (RawText × Node)
  | [] => [(name, node)]
  | (other, existing) :: rest =>
      if other = name then (name, node) :: rest
      else (other, existing) :: setEntry name node rest

/-- Change what is at a location below a node.  Directories on the way that do
not exist are made at the time `now`; a file on the way stays as it is. -/
def Node.update (now : Int) (change : Option Node → Node) :
    (location : List RawText) → Option Node → Node
  | [], node => change node
  | _ :: _, some (.file contents modified) => .file contents modified
  | name :: rest, some (.directory entries modified) =>
      .directory
        (setEntry name (Node.update now change rest (entries.lookup name))
          entries) modified
  | name :: rest, none =>
      .directory [(name, Node.update now change rest none)] now

end FileSystem

structure FileSystem where
  root : FileSystem.Node := FileSystem.emptyDirectory 0
  /-- The names that lead from the root to the working directory. -/
  workingDirectory : List RawText := []

namespace FileSystem

/-- The node at a path.  The empty path leads nowhere. -/
def lookup (files : FileSystem) (path : Path) : Except Failure Node :=
  if path.raw = [] then .error .notFound
  else if !fits path then .error .nameTooLong
  else if path.isAbsolute then walk [] files.root path.segments
  else walk [] files.root (files.workingDirectory ++ path.segments)

def readText (files : FileSystem) (path : Path) : Except Failure String := do
  match ← files.lookup path with
  | .file (.text text) _ => .ok text
  | .file .undecodable _ => .error .notUtf8
  | .directory .. => .error .isADirectory

/-- The time of the last change of what is at a path, if anything is. -/
def modified? (files : FileSystem) (path : Path) : Option Int :=
  (files.lookup path).toOption.map Node.modified

/-! ## Building file systems -/

/-- The names that lead from the root to a path without `..`. -/
def location (files : FileSystem) (path : Path) : List RawText :=
  let names := path.segments.filter fun segment => !Path.isIdle segment
  if path.isAbsolute then names else files.workingDirectory ++ names

/-- Write a file, making its directories at the time `now`. -/
def writeFile (files : FileSystem) (now : Int) (path : Path)
    (contents : Contents) (modified : Int) : FileSystem :=
  { files with
    root := Node.update now (fun _ => .file contents modified)
      (files.location path) (some files.root) }

/-- Make a directory, if there is none, at the time `now`. -/
def makeDirectory (files : FileSystem) (now : Int) (path : Path) : FileSystem :=
  { files with
    root := Node.update now (·.getD (emptyDirectory now))
      (files.location path) (some files.root) }

end FileSystem

end Parcels
