import Parcels.Model.Basic

/-!
# Prerequisite checks

A parcel passes if every prereq of every parcel it requires, directly or not,
is registered in a version that will do, and no parcel requires itself.  The
check walks depth first.  It does not visit again what has passed; it reports a
cycle when it meets a parcel whose check is under way.
-/

namespace Parcels.Model

/-- The parcel that satisfies a prereq of the parcel named `requiredBy`. -/
def satisfy (model : Model) (requiredBy : String) (prereq : Prereq) :
    Except Error ParcelId :=
  match model.parcelNamed? prereq.name with
  | none => .error (.unresolvedPrereq prereq.name requiredBy)
  | some id =>
      let found := model.parcelAt id
      if found.version.isBelow prereq.version then
        .error (.versionTooLow prereq.name requiredBy found.version.text
          prereq.version.text)
      else if !prereq.acceptsAnyVersion &&
          prereq.version.isBelow found.majorVersion then
        .error (.majorVersionTooHigh prereq.name requiredBy
          found.majorVersion.text prereq.version.text)
      else .ok id

/-- The part of the path from the parcel met again, closed to a cycle. -/
def cycleError (model : Model) (path : List ParcelId) (again : ParcelId) :
    Error :=
  let start := (path.idxOf? again).getD 0
  .prereqCycle ((path.drop start ++ [again]).map fun id =>
    (model.parcelAt id).name)

/-- Check one parcel; `path` leads to it from where the walk began. -/
def checkFrom (model : Model) :
    (bound : Nat) → (path : List ParcelId) → ParcelId → Action Checks Unit
  | bound, path, id => do
      let checks ← get
      if id ∈ checks.required then return
      if id ∈ checks.underway then throw (model.cycleError path id)
      match bound with
      | 0 => return
      | bound + 1 =>
          set { checks with underway := id :: checks.underway }
          let parcel := model.parcelAt id
          parcel.prereqs.forM fun prereq => do
            match model.satisfy parcel.name prereq with
            | .error error => throw error
            | .ok required => checkFrom model bound (path ++ [id]) required
          modify fun checks =>
            { required := id :: checks.required
              underway := checks.underway.erase id }

/-- Check the prereqs of a parcel and of all it requires. -/
def checkPrereqs (id : ParcelId) : Action Model Unit := fun model =>
  match model.checkFrom model.parcels.size [] id model.checks with
  | .ok _ checks => .ok () { model with checks := checks }
  | .error error checks => .error error { model with checks := checks }

end Parcels.Model
