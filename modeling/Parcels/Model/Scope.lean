import Parcels.Graph
import Parcels.Model.Basic

/-!
# Scopes

The classes that a parcel can name are its own, then those of its direct
prereqs, then those of the prereqs of these, and so on.
-/

namespace Parcels.Model

/-- The parcels visible from a parcel, nearer ones first. -/
def scope (model : Model) (id : ParcelId) : List ParcelId :=
  Graph.breadthFirst model.prereqParcels model.parcels.size id

def findInScope? (model : Model) (id : ParcelId) (name : String) :
    Option ClassId :=
  (model.scope id).findSome? fun visible => model.fetchClass? visible name

end Parcels.Model
