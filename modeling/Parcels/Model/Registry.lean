import Parcels.Model.Basic

/-!
# Registries

A registry tells where the parcels of a model stand.  It holds ids only, in the
order of registration and under names and nicknames, and it is filled as
parcels join.
-/

namespace Parcels

structure Registry where
  order : List ParcelId := []
  byName : List (String × ParcelId) := []
  byNickname : List (String × ParcelId) := []

namespace Registry

def fetch? (registry : Registry) (name : String) : Option ParcelId :=
  registry.byName.lookup name

def fetchNickname? (registry : Registry) (nickname : String) : Option ParcelId :=
  registry.byNickname.lookup nickname

/-- Fail if a name or a nickname is taken. -/
def check (registry : Registry) (name nickname : String) : Except Error Unit :=
  if (registry.fetch? name).isSome then
    .error (.duplicateParcelName name)
  else if (registry.fetchNickname? nickname).isSome then
    .error (.duplicateParcelNickname nickname)
  else .ok ()

/-- Enter an id in all three places, or in none if the name or the nickname is
taken. -/
def enter (id : ParcelId) (name nickname : String) : Action Registry Unit := do
  match (← get).check name nickname with
  | .error error => throw error
  | .ok () =>
      modify fun registry => { registry with order := registry.order ++ [id] }
      modify fun registry =>
        { registry with byName := (name, id) :: registry.byName }
      modify fun registry =>
        { registry with byNickname := (nickname, id) :: registry.byNickname }

end Registry

/-- A model and the registry that its registrations have filled. -/
structure IndexedModel where
  model : Model := {}
  registry : Registry := {}

namespace IndexedModel

def onModel {Result : Type} (action : Action Model Result) :
    Action IndexedModel Result := fun indexed =>
  match action indexed.model with
  | .ok result model => .ok result { indexed with model := model }
  | .error error model => .error error { indexed with model := model }

def onRegistry {Result : Type} (action : Action Registry Result) :
    Action IndexedModel Result := fun indexed =>
  match action indexed.registry with
  | .ok result registry => .ok result { indexed with registry := registry }
  | .error error registry => .error error { indexed with registry := registry }

/-- The parcel gets the id of the next place before the registry has taken it,
and it joins the others after that. -/
def register (parcel : Parcel) : Action IndexedModel ParcelId := do
  let id : ParcelId := ⟨(← get).model.parcels.size⟩
  onRegistry (Registry.enter id parcel.name parcel.nickname)
  onModel (modify fun model =>
    { model with parcels := model.parcels.push { parcel with } })
  return id

end IndexedModel

end Parcels
