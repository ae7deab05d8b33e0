import Parcels.Hierarchy.Basic
import Parcels.Model.Inheritance

/-!
# Stale files

Generated code is stale when it does not exist or is older than its header.  A
file is also marked when a class in it has a parent that was found modified
before it.
-/

namespace Parcels

/-- The times of last change of the paths that exist. -/
abbrev Timestamps := Path → Option Int

namespace Timestamps

/-- Whether `artifact` exists and is not older than `source`.  An artifact
whose source is missing is current. -/
def isCurrent (times : Timestamps) (source artifact : Path) : Bool :=
  match times source, times artifact with
  | _, none => false
  | none, some _ => true
  | some sourceTime, some artifactTime => sourceTime ≤ artifactTime

end Timestamps

namespace Hierarchy

/-- Whether a file needs new code on its own account. -/
def isStale (hierarchy : Hierarchy) (times : Timestamps) (force : Bool)
    (file : SourceFile) : Bool :=
  force || !times.isCurrent file.path (file.headerPath hierarchy.includeDest)

/-- Marks under way: the files, and the classes that were found modified. -/
structure Marks where
  files : Array SourceFile
  modified : List ClassId := []

/-- Mark the file of a class if the class has a modified parent, and take note
of the class if its file is marked. -/
def markClass (hierarchy : Hierarchy) (model : Model) (marks : Marks)
    (id : ClassId) : Marks :=
  match hierarchy.fileIndices.lookup id with
  | none => marks
  | some index =>
      let parentModified := (model.parent? id).any marks.modified.contains
      if ((marks.files[index]?).any SourceFile.modified) || parentModified then
        { files := marks.files.modify index fun file =>
            { file with modified := true }
          modified := id :: marks.modified }
      else marks

/-- Mark every stale file, and the files that the parent-first pass over all
classes adds. -/
def markModified (hierarchy : Hierarchy) (model : Model) (times : Timestamps)
    (force : Bool) : Hierarchy :=
  let stale := hierarchy.files.map fun file =>
    { file with modified := hierarchy.isStale times force file }
  let marks := model.orderedClasses.foldl (hierarchy.markClass model)
    { files := stale }
  { hierarchy with files := marks.files }

def anyModified (hierarchy : Hierarchy) : Bool :=
  hierarchy.files.any SourceFile.modified

def modifiedPaths (hierarchy : Hierarchy) : List Path :=
  (hierarchy.files.toList.filter SourceFile.modified).map SourceFile.path

end Hierarchy

end Parcels
