import Parcels.Error
import Parcels.Json.Reader
import Parcels.Parcel

/-!
# Parcel specs

A spec is a hash with the keys `name`, `version`, `nickname`, `major_version`,
`installed` and `prerequisites`.  Every entry is checked as it is met, the last
entry of a key counts, and `name` and `version` must occur.
-/

namespace Parcels.Parcel

/-- What the entries read so far say. -/
structure Spec where
  name : Option String := none
  nickname : Option String := none
  version : Option Version := none
  majorVersion : Option Version := none
  installed : Bool := true
  prereqs : List Prereq := []

namespace Spec

def expectString (path key : String) : Json → Except Error String
  | .string text => .ok text
  | _ => .error (.wrongType key .string path)

def parseVersion (path text : String) : Except Error Version :=
  (Version.parse text).mapError (.malformedIn path)

def readPrereq (path : String) : String × Json → Except Error Prereq
  | (name, .string text) => do
      let version ← parseVersion path text
      (Prereq.make name (some version)).mapError (.malformedIn path)
  | (name, .null) => (Prereq.make name none).mapError (.malformedIn path)
  | (name, _) => .error (.invalidPrereqValue name path)

def readEntry (path : String) (spec : Spec) :
    String × Json → Except Error Spec
  | ("name", value) => do
      let text ← expectString path "name" value
      return { spec with name := some text }
  | ("nickname", value) => do
      let text ← expectString path "nickname" value
      return { spec with nickname := some text }
  | ("version", value) => do
      let text ← expectString path "version" value
      let version ← parseVersion path text
      return { spec with version := some version }
  | ("major_version", value) => do
      let text ← expectString path "major_version" value
      let version ← parseVersion path text
      return { spec with majorVersion := some version }
  | ("installed", .boolean value) => .ok { spec with installed := value }
  | ("installed", _) => .error (.wrongType "installed" .boolean path)
  | ("prerequisites", .hash entries) => do
      let prereqs ← entries.mapM (readPrereq path)
      return { spec with prereqs := prereqs }
  | ("prerequisites", _) => .error (.wrongType "prerequisites" .hash path)
  | (key, _) => .error (.unknownKey key path)

/-- The parcel that a complete set of entries describes. -/
def toParcel (path : String) (included : Bool) (spec : Spec) :
    Except Error Parcel :=
  match spec.name, spec.version with
  | none, _ => .error (.missingKey "name" path)
  | some _, none => .error (.missingKey "version" path)
  | some name, some version => do
      let parcel ← (Parcel.make name spec.nickname (some version) included)
        |>.mapError (.malformedIn path)
      return { parcel.withInstalled spec.installed with
        prereqs := spec.prereqs
        majorVersion := spec.majorVersion.getD .zero }

def parse (path text : String) (included : Bool) : Except Error Parcel :=
  match Json.parse? text with
  | none => .error (.invalidJson path)
  | some (.hash entries) => do
      let spec ← entries.foldlM (readEntry path) {}
      spec.toParcel path included
  | some _ => .error (.notAHash path)

end Spec

/-- The parcel that the spec file at `source` describes. -/
def fromSpec (text : String) (source : Path) (included : Bool) :
    Except Error Parcel := do
  let parcel ← Spec.parse source.text text included
  return { parcel with source := some source }

/-- The parcel of a spec that does not come from a file. -/
def fromJson (text : String) (included : Bool) : Except Error Parcel :=
  Spec.parse "[NULL]" text included

end Parcels.Parcel
