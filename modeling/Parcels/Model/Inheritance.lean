import Parcels.Model.Scope
import Parcels.Sorting

/-!
# Inheritance

Every class that declares a parent is linked to it once.  Then the classes of
a parcel are put in the preorder of the forest that the links form within the
parcel, roots and siblings by name, so that parents come first.
-/

namespace Parcels.Model

/-- Link a class of the parcel `id` to its declared parent, unless it has been
linked before. -/
def linkParent (id : ParcelId) (child : ClassId) : Action Model Unit := do
  let model ← get
  if (model.parent? child).isSome then return
  match (model.classAt child).parentName with
  | none => return
  | some parentName =>
      match model.findInScope? id parentName with
      | none => throw (.unresolvedParent parentName (model.className child))
      | some parent =>
          if (model.classAt parent).isFinal then
            throw (.finalParent (model.className child) parentName)
          set { model with links := model.links ++ [Link.mk child parent] }

def sortByName (model : Model) (ids : List ClassId) : List ClassId :=
  Sorting.sort
    (fun left right => model.className left ≤ model.className right) ids

/-- Classes without a parent in their own parcel start a subtree of it. -/
def startsSubtree (model : Model) (id : ParcelId) (member : ClassId) : Bool :=
  (model.parent? member).all fun parent => model.owner parent != id

/-- The children of a class that belong to the parcel `id`, by name. -/
def childrenWithin (model : Model) (id : ParcelId) (parent : ClassId) :
    List ClassId :=
  model.sortByName
    ((model.children parent).filter fun child => model.owner child == id)

/-- The classes of a parcel that its subtree roots lead to, parents first. -/
def inheritanceOrder (model : Model) (id : ParcelId) : List ClassId :=
  (model.sortByName ((model.classesOf id).filter (model.startsSubtree id))).flatMap
    (Graph.preorder (model.childrenWithin id) model.classes.size)

/-- Link the classes of a parcel and sort them.  Links that were made stay
when a later one fails. -/
def connectAndSort (id : ParcelId) : Action Model Unit := do
  let members := (← get).classesOf id
  members.forM (linkParent id)
  let model ← get
  let sorted := model.inheritanceOrder id
  if sorted.length = members.length then
    set (model.setClasses id sorted)
  else
    match model.sortByName (members.filter fun member => member ∉ sorted) with
    | first :: _ => throw (.inheritanceCycle (model.className first))
    | [] => throw (.unbalancedSort (model.parcelAt id).name members.length
        sorted.length)

/-- The classes below a class, depth first, siblings in link order. -/
def descendants (model : Model) (id : ClassId) : List ClassId :=
  (model.children id).flatMap (Graph.preorder model.children model.classes.size)

/-- Every class of the model, parcels after their prereqs. -/
def orderedClasses (model : Model) : List ClassId :=
  (Graph.postorder model.prereqParcels model.parcels.size
    model.parcelIds).flatMap model.classesOf

end Parcels.Model
