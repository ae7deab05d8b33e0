import Parcels.Class
import Parcels.Error

/-!
# The model

All parcels and classes of one compilation.  Parcels and classes are numbered
in the order in which they join and never change afterwards.  What the passes
over the model find out is kept beside them: the order of each parcel's
classes, the links from classes to their parents, the state of the prereq
checks, and the host data.
-/

namespace Parcels

/-- A parcel of the model with its classes, in declaration order until they
are sorted. -/
structure RegisteredParcel extends Parcel where
  classes : List ClassId := []
  deriving Inhabited

/-- A class and the parent class it has been linked to. -/
structure Link where
  child : ClassId
  parent : ClassId
  deriving DecidableEq, Repr

/-- How far the prereq checks have come. -/
structure Checks where
  /-- Parcels that passed, with all they require. -/
  required : List ParcelId := []
  /-- Parcels whose check was begun and has not passed. -/
  underway : List ParcelId := []
  deriving DecidableEq

/-- What host data files say, newest first. -/
structure HostData where
  modules : List (ParcelId × String) := []
  classes : List (ClassId × List (String × Json)) := []

inductive Warning where
  | ambiguousSymbol (symbol first second : String)
  deriving DecidableEq, Repr

def Warning.message : Warning → String
  | .ambiguousSymbol symbol first second =>
      "Type '" ++ symbol ++ "' is ambiguous. Do you mean " ++ first ++
        " or " ++ second ++ "?"

structure Model where
  parcels : Array RegisteredParcel := #[]
  classes : Array Class := #[]
  /-- In the order in which the links were made. -/
  links : List Link := []
  checks : Checks := {}
  host : HostData := {}
  /-- In the order in which they arose. -/
  warnings : List Warning := []
  deriving Inhabited

/-- An action may change the model and fail all the same. -/
abbrev Action (State : Type) := EStateM Error State

namespace Model

/-! ## Parcels -/

def parcelAt (model : Model) (id : ParcelId) : RegisteredParcel :=
  model.parcels.getD id.index default

def parcelIds (model : Model) : List ParcelId :=
  (List.range model.parcels.size).map ParcelId.mk

def parcelNamed? (model : Model) (name : String) : Option ParcelId :=
  model.parcelIds.find? fun id => (model.parcelAt id).name == name

def parcelNicknamed? (model : Model) (nickname : String) : Option ParcelId :=
  model.parcelIds.find? fun id => (model.parcelAt id).nickname == nickname

/-- Names and nicknames of parcels are unique. -/
def checkNames (model : Model) (name nickname : String) : Except Error Unit :=
  if (model.parcelNamed? name).isSome then
    .error (.duplicateParcelName name)
  else if (model.parcelNicknamed? nickname).isSome then
    .error (.duplicateParcelNickname nickname)
  else .ok ()

def register (model : Model) (parcel : Parcel) :
    Except Error (ParcelId × Model) := do
  model.checkNames parcel.name parcel.nickname
  return (⟨model.parcels.size⟩,
    { model with parcels := model.parcels.push { parcel with } })

/-- The registered parcels among the prereqs of a parcel, in the order in
which the prereqs are declared. -/
def prereqParcels (model : Model) (id : ParcelId) : List ParcelId :=
  (model.parcelAt id).prereqs.filterMap fun prereq =>
    model.parcelNamed? prereq.name

/-- Whether `other` is the parcel itself or one of its direct prereqs. -/
def hasPrereq (model : Model) (id other : ParcelId) : Bool :=
  id == other ||
    (model.parcelAt id).prereqs.any fun prereq =>
      prereq.name == (model.parcelAt other).name

/-! ## Classes -/

def classAt (model : Model) (id : ClassId) : Class :=
  model.classes.getD id.index default

def classIds (model : Model) : List ClassId :=
  (List.range model.classes.size).map ClassId.mk

def classesOf (model : Model) (id : ParcelId) : List ClassId :=
  (model.parcelAt id).classes

/-- The parcel that owns a class. -/
def owner (model : Model) (id : ClassId) : ParcelId :=
  (model.classAt id).parcel

def className (model : Model) (id : ClassId) : String :=
  (model.classAt id).name

def fetchClass? (model : Model) (id : ParcelId) (name : String) :
    Option ClassId :=
  (model.classesOf id).find? fun member => model.className member == name

/-- The struct symbol of a class with the symbol stem of its parcel. -/
def fullStructSymbol (model : Model) (id : ClassId) : String :=
  (model.parcelAt (model.owner id)).lowerPrefix ++
    (model.classAt id).structSymbol

def fullVariable (model : Model) (id : ClassId) : String :=
  (model.parcelAt (model.owner id)).upperPrefix ++
    (model.classAt id).shortVariable

/-- A class is included if its parcel is. -/
def isIncluded (model : Model) (id : ClassId) : Bool :=
  (model.parcelAt (model.owner id)).included

def setClasses (model : Model) (id : ParcelId) (classes : List ClassId) :
    Model :=
  { model with
    parcels := model.parcels.modify id.index fun parcel =>
      { parcel with classes := classes } }

/-- What an existing class of the same parcel has in common with a new one. -/
def clash? (existing added : Class) : Option Error :=
  if existing.name = added.name then
    some (.duplicateClassName added.name)
  else if existing.structSymbol = added.structSymbol then
    some (.classSymbolConflict existing.name added.name)
  else if existing.nickname = added.nickname then
    some (.classNicknameConflict existing.name added.name)
  else none

/-- Declare a class in a registered parcel.  Names, struct symbols and nicknames
are unique within a parcel.  The parcel lists the new id before the class joins
the others. -/
def declareClass (id : ParcelId) (header : ClassHeader) :
    Action Model ClassId := do
  let model ← get
  let newId : ClassId := ⟨model.classes.size⟩
  match Class.make newId id header with
  | .error malformed => throw (.malformed malformed)
  | .ok added =>
      match (model.classesOf id).findSome? fun member =>
          clash? (model.classAt member) added with
      | some error => throw error
      | none =>
          modify fun model =>
            model.setClasses id (model.classesOf id ++ [newId])
          modify fun model =>
            { model with classes := model.classes.push added }
          return newId

/-- What a declaration leaves unless it is refused. -/
def addClass (model : Model) (id : ParcelId) (header : ClassHeader) :
    Except Error (ClassId × Model) :=
  match declareClass id header model with
  | .ok newId after => .ok (newId, after)
  | .error error _ => .error error

/-! ## Links -/

def parent? (model : Model) (id : ClassId) : Option ClassId :=
  (model.links.find? fun link => link.child == id).map Link.parent

/-- The linked children of a class, of any parcel, in link order. -/
def children (model : Model) (id : ClassId) : List ClassId :=
  (model.links.filter fun link => link.parent == id).map Link.child

/-- The other parcels that hold parents of this parcel's classes, in the order
in which the first link to each was made. -/
def inheritedParcels (model : Model) (id : ParcelId) : List ParcelId :=
  let parents := (model.links.filter fun link =>
    model.owner link.child == id).map fun link => model.owner link.parent
  (parents.filter (· != id)).eraseDups

/-! ## Results of the passes -/

def isRequired (model : Model) (id : ParcelId) : Bool :=
  model.checks.required.contains id

def hostModule? (model : Model) (id : ParcelId) : Option String :=
  model.host.modules.lookup id

def hostData? (model : Model) (id : ClassId) :
    Option (List (String × Json)) :=
  model.host.classes.lookup id

end Model

end Parcels
