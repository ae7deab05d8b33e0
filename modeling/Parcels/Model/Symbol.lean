import Parcels.Model.Basic

/-!
# Struct symbols

A short symbol is looked up in a parcel and then in its direct prereqs, where
more than one match is ambiguous.  A full symbol starts with the lower-case
stem of the parcel that owns the class.
-/

namespace Parcels.Model

def withStructSymbol? (model : Model) (id : ParcelId) (symbol : String) :
    Option ClassId :=
  (model.classesOf id).find? fun member =>
    (model.classAt member).structSymbol == symbol

def warn (model : Model) (warning : Warning) : Model :=
  { model with warnings := model.warnings ++ [warning] }

/-- The class with a short symbol as seen from a parcel.  An ambiguous symbol
gives none and a warning. -/
def findShortSymbol (model : Model) (id : ParcelId) (symbol : String) :
    Option ClassId × Model :=
  match model.withStructSymbol? id symbol with
  | some found => (some found, model)
  | none =>
      match (model.prereqParcels id).filterMap
          (model.withStructSymbol? · symbol) with
      | [] => (none, model)
      | [only] => (some only, model)
      | first :: second :: _ =>
          (none, model.warn (.ambiguousSymbol symbol
            (model.fullStructSymbol first) (model.fullStructSymbol second)))

/-- The class with a full symbol as seen from a parcel.  The stem ends before
the first upper-case letter. -/
def findFullSymbol (model : Model) (id : ParcelId) (symbol : String) :
    Except Error (Option ClassId) :=
  let (stem, short) := symbol.toList.span fun char => !char.isUpper
  if short.isEmpty then .error (.invalidSymbol symbol)
  else
    let owners := (id :: model.prereqParcels id).filter fun candidate =>
      (model.parcelAt candidate).lowerPrefix == String.ofList stem
    .ok (owners.findSome? (model.withStructSymbol? · (String.ofList short)))

end Parcels.Model
