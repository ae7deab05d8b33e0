import Parcels.Path
import Parcels.Prereq

/-!
# Parcels

A parcel is a named, versioned unit that owns classes and declares the parcels
it needs.  The symbols of its classes start with its nickname.
-/

namespace Parcels

structure Parcel where
  name : String
  nickname : String
  version : Version
  /-- The oldest version that this one is compatible with. -/
  majorVersion : Version := .zero
  /-- Whether the parcel comes from an include dir. -/
  included : Bool
  installed : Bool
  prereqs : List Prereq := []
  /-- The spec file, if the parcel was read from one. -/
  source : Option Path := none
  deriving Inhabited

namespace Parcel

/-- The nickname defaults to the name and the version to `v0`. -/
def make (name : String) (nickname : Option String)
    (version : Option Version) (included : Bool) : Except Malformed Parcel :=
  if !Name.isParcelName name then .error (.name .parcelName name)
  else
    let shortName := nickname.getD name
    if !Name.isParcelName shortName then
      .error (.name .parcelNickname shortName)
    else .ok
      { name := name
        nickname := shortName
        version := version.getD .zero
        included := included
        installed := !included }

/-- Included parcels are never installed. -/
def withInstalled (parcel : Parcel) (installed : Bool) : Parcel :=
  { parcel with installed := installed && !parcel.included }

def camelPrefix (parcel : Parcel) : String :=
  parcel.nickname ++ "_"

def lowerPrefix (parcel : Parcel) : String :=
  Name.lowerCase parcel.camelPrefix

def upperPrefix (parcel : Parcel) : String :=
  Name.upperCase parcel.camelPrefix

/-- The macro that guards the private symbols of the parcel. -/
def privacySymbol (parcel : Parcel) : String :=
  "CFP_" ++ Name.upperCase parcel.nickname

/-- Two descriptions of one parcel: same names, equal versions, and both
included or neither. -/
def sameIdentity (left right : Parcel) : Bool :=
  left.name == right.name && left.nickname == right.nickname &&
    left.version == right.version && left.included == right.included

end Parcel

end Parcels
