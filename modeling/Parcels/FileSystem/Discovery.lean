import Parcels.FileSystem
import Parcels.Sorting

/-!
# Discovery

All files with a given extension below a directory.  What a name with a
leading dot hides is left out, whether it is a file or a directory.  The
answer is sorted, so it does not depend on the order of directory entries.
-/

namespace Parcels.FileSystem

/-- Whether a name starts with a dot.  Bytes that are not UTF-8 start with
nothing. -/
def isHidden (name : RawText) : Bool :=
  (name.text?).any fun text => text.toList.head? == some '.'

mutual

/-- The files below a node at a path, each as the names that lead to it. -/
def Node.filesBelow (extension : RawText) (path : Path) :
    Node → List (List RawText)
  | .file .. => []
  | .directory entries _ => entryFiles extension path entries

/-- A directory that the system does not find, since its path is too long, is
taken for a file. -/
def entryFiles (extension : RawText) (directory : Path) :
    List (RawText × Node) → List (List RawText)
  | [] => []
  | (name, node) :: rest =>
      let path := directory.join name
      let found :=
        if isHidden name then []
        else if node.isDirectory && fits path then
          (node.filesBelow extension path).map (name :: ·)
        else if Path.extension? name = some extension then [[name]]
        else []
      found ++ entryFiles extension directory rest

end

/-- The paths of the files with an extension below `directory`, in order. -/
def discover (files : FileSystem) (directory : Path) (extension : RawText) :
    Except Failure (List Path) := do
  match ← files.lookup directory with
  | .file .. => .error .notADirectory
  | node => .ok (Sorting.sort Path.mayPrecede
      ((node.filesBelow extension directory).map fun names =>
        names.foldl Path.join directory))

end Parcels.FileSystem
