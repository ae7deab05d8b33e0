import Parcels.Version

/-!
# Prerequisites

A prereq names a parcel and the least version of it that will do, or leaves
the version open.
-/

namespace Parcels

structure Prereq where
  name : String
  /-- The least version accepted; absent when any version will do. -/
  atLeast : Option Version
  deriving DecidableEq, Inhabited

namespace Prereq

def make (name : String) (atLeast : Option Version) : Except Malformed Prereq :=
  if Name.isParcelName name then .ok ⟨name, atLeast⟩
  else .error (.name .prereqName name)

/-- The version to compare with; an open one counts as `v0`. -/
def version (prereq : Prereq) : Version :=
  prereq.atLeast.getD .zero

def acceptsAnyVersion (prereq : Prereq) : Bool :=
  prereq.atLeast.isNone

end Prereq

end Parcels
