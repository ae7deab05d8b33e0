import Parcels.FileSystem.Discovery
import Parcels.Header.Outline
import Parcels.Hierarchy.Basic
import Parcels.Model.HostFile
import Parcels.Model.Inheritance
import Parcels.Model.Prerequisites
import Parcels.Parcel.Spec

/-!
# Building a hierarchy

A build reads every parcel spec, then every header, then checks prereqs and
sorts classes.  What is found in an include dir never overrides what was found
before it.
-/

namespace Parcels.Hierarchy

open Parcels.FileSystem

/-- What a build works on. -/
structure Workspace where
  hierarchy : Hierarchy
  model : Model

/-- A step of a build may change the workspace and fail all the same. -/
abbrev Step := EStateM Error Workspace

def onModel {Result : Type} (action : Action Model Result) : Step Result :=
  fun workspace =>
    match action workspace.model with
    | .ok result model => .ok result { workspace with model := model }
    | .error error model =>
        .error (.model error) { workspace with model := model }

/-- An addition to the model, which changes nothing when it fails. -/
def extendModel {Id : Type} (add : Model → Except Parcels.Error (Id × Model)) :
    Step Id := fun workspace =>
  match add workspace.model with
  | .ok (id, model) => .ok id { workspace with model := model }
  | .error error => .error (.model error) workspace

def discovered (files : FileSystem) (dir : Path) (extension : RawText) :
    Step (List Path) :=
  match files.discover dir extension with
  | .ok paths => return paths
  | .error failure => throw (.unreadable dir.text failure)

/-! ## Parcel specs -/

def readSpec (files : FileSystem) (included : Bool) (path : Path) :
    Step Unit := do
  match files.readText path with
  | .error failure => throw (.model (.unreadable path.text failure))
  | .ok text =>
      match Parcel.fromSpec text path included with
      | .error error => throw (.model error)
      | .ok parcel =>
          let model := (← get).model
          if included && (model.parcelNamed? parcel.name).isSome then return
          let _ ← extendModel (·.register parcel)

def readSpecs (files : FileSystem) (dir : Path) (included : Bool) :
    Step Unit := do
  let paths ← discovered files dir "cfp"
  paths.forM (readSpec files included)

/-! ## Headers -/

/-- The parcel that a header names. -/
def parcelNamed (name : String) (path : Path) : Step ParcelId := do
  match (← get).model.parcelNamed? name with
  | some id => return id
  | none => throw (.model (.unknownParcel name path.text))

/-- Enter a declaration of the file that will stand at `index`. -/
def addDecl (index : Nat) (path : Path) (included : Bool) :
    Decl → Step Block
  | .parcelStatement name => do
      let id ← parcelNamed name path
      return .parcel id
  | .classHeader parcel header => do
      let id ← parcelNamed parcel path
      let owner := (← get).model.parcelAt id
      if !included && owner.included then
        throw (.sourceClassInIncludedParcel header.name owner.name)
      let member ← onModel (Model.declareClass id header)
      modify fun workspace =>
        { workspace with hierarchy :=
            { workspace.hierarchy with
              fileIndices := (member, index) :: workspace.hierarchy.fileIndices } }
      return .member member
  | .cBlock code => return .cBlock code

def firstParcel? (blocks : List Block) : Option ParcelId :=
  blocks.findSome? fun block =>
    match block with
    | .parcel id => some id
    | _ => none

def addFile (path pathPart : Path) (included : Bool) (text : String) :
    Step Unit := do
  let index := (← get).hierarchy.files.size
  match Header.scan text with
  | .error error => throw (.syntaxError path.text error)
  | .ok decls =>
      let blocks ← decls.mapM (addDecl index path included)
      let file : SourceFile :=
        { path := path
          pathPart := pathPart
          included := included
          parcel := firstParcel? blocks
          blocks := blocks }
      modify fun workspace =>
        { workspace with hierarchy :=
            { workspace.hierarchy with
              files := workspace.hierarchy.files.push file } }

/-- The relative paths of the headers met so far, each with the directory in
which it was first found. -/
abbrev Seen := List (Path × Path)

def partBelow (dir path : Path) : Path :=
  ((path.relativeTo? dir).getD path).withExtension []

def readHeader (files : FileSystem) (dir : Path) (included : Bool)
    (seen : Seen) (path : Path) : Step Seen := do
  let part := partBelow dir path
  match seen.lookup part with
  | some first =>
      if included then return seen
      throw (.foundTwice (part.withExtension "cfh").text first.text dir.text)
  | none =>
      match files.readText path with
      | .error failure => throw (.unreadable path.text failure)
      | .ok text =>
          addFile path part included text
          return (part, dir) :: seen

def readHeaders (files : FileSystem) (seen : Seen) :
    Path × Bool → Step Seen
  | (dir, included) => do
      let paths ← discovered files dir "cfh"
      paths.foldlM (readHeader files dir included) seen

/-! ## The whole build -/

/-- Check the prereqs of every parcel that is not included, then connect and
sort the classes of every parcel that has some. -/
def resolve : Action Model Unit := do
  let ids := (← get).parcelIds
  ids.forM fun id => do
    if !((← get).parcelAt id).included then Model.checkPrereqs id
  ids.forM fun id => do
    if !((← get).classesOf id).isEmpty then Model.connectAndSort id

def build (files : FileSystem) : Step Unit := do
  let dirs := (← get).hierarchy.allDirs
  dirs.forM fun (dir, included) => readSpecs files dir included
  let _ ← dirs.foldlM (readHeaders files) []
  onModel resolve

/-- Apply the host data file of every parcel that has one. -/
def readHostFiles (files : FileSystem) (language : String) : Step Unit := do
  (← get).model.parcelIds.forM fun id => do
    let _ ← onModel (Model.readHostFile files language id)

end Parcels.Hierarchy
