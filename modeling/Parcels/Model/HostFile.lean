import Parcels.FileSystem
import Parcels.Json.Reader
import Parcels.Model.Basic

/-!
# Host data

A host data file lies beside the spec of a parcel.  It may name a host module
for the parcel and give data for its classes.  Entries take effect one by one,
so those before a wrong entry stay in effect.
-/

namespace Parcels.Model

/-- The data that a class entry gives; `null` stands for no entries. -/
def classData (path name : String) : Json → Except Error (List (String × Json))
  | .hash entries => .ok entries
  | .null => .ok []
  | _ => .error (.wrongType name .hash path)

def applyClassEntry (model : Model) (id : ParcelId) (path : String) :
    String × Json → Action HostData Unit
  | (name, value) => do
      match model.fetchClass? id name with
      | none => throw (.unknownHostClass name path)
      | some member =>
          match classData path name value with
          | .error error => throw error
          | .ok entries => modify fun host =>
              { host with classes := (member, entries) :: host.classes }

def applyHostEntry (model : Model) (id : ParcelId) (path : String) :
    String × Json → Action HostData Unit
  | ("host_module", .string name) => modify fun host =>
      { host with modules := (id, name) :: host.modules }
  | ("host_module", _) => throw (.wrongType "host_module" .string path)
  | ("classes", .hash entries) =>
      entries.forM (model.applyClassEntry id path)
  | ("classes", _) => throw (.wrongType "classes" .hash path)
  | (key, _) => throw (.unknownKey key path)

/-- Apply host data read from `path` to a parcel and its classes. -/
def applyHostData (id : ParcelId) (path text : String) : Action Model Unit :=
  fun model =>
    match Json.parse? text with
    | none => .error (.invalidJson path) model
    | some (.hash entries) =>
        match entries.forM (model.applyHostEntry id path) model.host with
        | .ok _ host => .ok () { model with host := host }
        | .error error host => .error error { model with host := host }
    | some _ => .error (.notAHash path) model

def hostFileName (language : String) : String :=
  "parcel_" ++ language ++ ".json"

/-- Apply the host data file of a parcel for a language.  The answer tells
whether there is one. -/
def readHostFile (files : FileSystem) (language : String) (id : ParcelId) :
    Action Model Bool := do
  match (← get).parcelAt id |>.source.bind Path.parent? with
  | none => return false
  | some directory =>
      let path := directory.join (hostFileName language)
      match files.readText path with
      | .error .notFound => return false
      | .error failure => throw (.unreadable path.text failure)
      | .ok text =>
          applyHostData id path.text text
          return true

end Parcels.Model
