import Parcels.Proofs.Graph.LevelSearch
import Parcels.Proofs.Graph.SearchOrder
import Parcels.Proofs.Model.PrereqClosure

/-!
# What a name finds

A class name is looked for in the parcel itself, then in its direct prereqs, then
in the prereqs of these.  It finds the class at the end of the shortest route
along registered prereqs, and of the routes of that length the one that takes the
earlier prereqs.  Prereqs that are not registered are passed over, and a circle
of prereqs is gone through once.
-/

namespace Parcels.Model

open Parcels.Graph

variable {model : Model} {id : ParcelId} {name : String}

/-- What each declared prereq of a parcel stands for, if it is registered. -/
def prereqSlots (model : Model) (id : ParcelId) : List (Option ParcelId) :=
  (model.parcelAt id).prereqs.map fun prereq => model.parcelNamed? prereq.name

/-- The route takes the registered prereqs at the given places, one from another,
from one parcel to the other. -/
def PrereqRoute (model : Model) (id : ParcelId) (route : List Nat)
    (other : ParcelId) : Prop :=
  follow? model.prereqSlots id route = some other

/-- The parcel has a class of that name. -/
def Owns (model : Model) (id : ParcelId) (name : String) (member : ClassId) : Prop :=
  member ∈ model.classesOf id ∧ model.className member = name

/-- Of all routes from `id` to parcels that own a class of that name, a first one
leads to `other`: none is shorter, and of its length none takes earlier prereqs. -/
def Nearest (model : Model) (id : ParcelId) (name : String) (other : ParcelId) : Prop :=
  ∃ route, model.PrereqRoute id route other ∧
    ∀ route' rival member, model.PrereqRoute id route' rival →
      model.Owns rival name member →
        route.length ≤ route'.length ∧
          (route.length = route'.length →
            route = route' ∨ List.Lex (· < ·) route route')

/-- What looking for a class by name comes to. -/
structure FindsNearest (model : Model) (id : ParcelId) (name : String) : Prop where
  /-- The search level by level ends, with this answer and no other. -/
  ends : ∀ answer, LevelSearch model.prereqParcels (model.fetchClass? · name)
    [id] [id] answer ↔ answer = model.findInScope? id name
  isSome_iff : (model.findInScope? id name).isSome ↔
    ∃ other member, Reaches model.prereqParcels id other ∧ model.Owns other name member
  nearest : ∀ found, model.findInScope? id name = some found →
    model.Owns (model.owner found) name found ∧ model.Nearest id name (model.owner found)
  own : ∀ member, model.Owns id name member → model.findInScope? id name = some member
  /-- A class of a direct prereq comes before classes of indirect ones. -/
  direct : ∀ prereq ∈ model.prereqParcels id, ∀ member, model.Owns prereq name member →
    ∃ found, model.findInScope? id name = some found ∧
      (model.owner found = id ∨ model.owner found ∈ model.prereqParcels id)

theorem successorsAt_prereqSlots (model : Model) :
    successorsAt model.prereqSlots = model.prereqParcels := by
  funext id
  rw [successorsAt, prereqSlots, List.reduceOption, List.filterMap_map]
  rfl

theorem prereqRoute_singleton_iff {other : ParcelId} :
    (∃ place, model.PrereqRoute id [place] other) ↔ other ∈ model.prereqParcels id := by
  simp only [PrereqRoute, follow?_singleton_eq_some_iff]
  rw [← successorsAt_prereqSlots]
  exact edge_successorsAt_iff.symm

theorem Owns.isSome_fetchClass? {member : ClassId} (howns : model.Owns id name member) :
    (model.fetchClass? id name).isSome :=
  List.find?_isSome.mpr ⟨member, howns.1, by simpa using howns.2⟩

theorem levelSearch_findInScope? (hid : id ∈ model.parcelIds) (name : String) :
    LevelSearch model.prereqParcels (model.fetchClass? · name) [id] [id]
      (model.findInScope? id name) := by
  rw [findInScope?, scope, ← length_parcelIds]
  exact levelSearch_breadthFirst model.prereqParcels_subset hid

theorem isSome_findInScope?_iff (hid : id ∈ model.parcelIds) :
    (model.findInScope? id name).isSome ↔
      ∃ other member, Reaches model.prereqParcels id other ∧ model.Owns other name member := by
  constructor
  · intro hsome
    obtain ⟨found, hfound⟩ := Option.isSome_iff_exists.mp hsome
    obtain ⟨visible, hpath, howns⟩ := mem_of_findInScope? hfound
    exact ⟨visible, found, hpath, howns⟩
  · rintro ⟨other, member, hpath, howns⟩
    by_contra hnone
    have hmissed := (levelSearch_findInScope? hid name).missed_of_reaches
      (Option.not_isSome_iff_eq_none.mp hnone) (by simp) List.mem_cons_self hpath
    have hsome := howns.isSome_fetchClass?
    simp [hmissed] at hsome

/-- What is found lies at the end of the first route to a class of that name. -/
theorem Partitioned.nearest_of_found (hpartitioned : model.Partitioned) {found : ClassId}
    (hfound : model.findInScope? id name = some found) :
    model.Owns (model.owner found) name found ∧ model.Nearest id name (model.owner found) := by
  rw [findInScope?, scope, ← successorsAt_prereqSlots] at hfound
  obtain ⟨route, visible, hroute, hfetch, hfirst⟩ := findSome?_breadthFirst_eq_some hfound
  have howns := hpartitioned.fetchClass?_eq_some_iff.mp hfetch
  obtain rfl : model.owner found = visible := hpartitioned.owner_of_mem howns.1
  refine ⟨howns, route, hroute, ?_⟩
  intro route' rival member hroute' hrival
  rcases hfirst route' rival hroute' hrival.isSome_fetchClass? with rfl | hbefore
  · exact ⟨Nat.le_refl _, fun _ => .inl rfl⟩
  · rcases List.shortlex_def.mp hbefore with hshorter | ⟨hsame, hlex⟩
    · exact ⟨Nat.le_of_lt hshorter, fun hsame => absurd hsame (Nat.ne_of_lt hshorter)⟩
    · exact ⟨Nat.le_of_eq hsame, fun _ => .inr hlex⟩

/-- Whatever the prereqs of a model are like, a name finds the nearest class that
has it. -/
theorem findInScope?_finds_nearest (hreachable : model.Reachable)
    (hid : id ∈ model.parcelIds) (name : String) : model.FindsNearest id name := by
  have hpartitioned := hreachable.sound.partitioned
  have hsome : ∀ {other member}, Reaches model.prereqParcels id other →
      model.Owns other name member → ∃ found, model.findInScope? id name = some found :=
    fun hpath howns => Option.isSome_iff_exists.mp
      ((isSome_findInScope?_iff hid).mpr ⟨_, _, hpath, howns⟩)
  constructor
  case ends =>
    intro answer
    have hends := levelSearch_findInScope? hid name
    exact ⟨fun hanswer => hanswer.unique hends, fun hsame => hsame ▸ hends⟩
  case isSome_iff => exact isSome_findInScope?_iff hid
  case nearest => exact fun found => hpartitioned.nearest_of_found
  case own =>
    intro member howns
    obtain ⟨found, hfound⟩ := hsome .refl howns
    obtain ⟨hfoundOwns, route, hroute, hfirst⟩ := hpartitioned.nearest_of_found hfound
    have hshort : route.length ≤ 0 := (hfirst [] id member rfl howns).1
    obtain rfl := List.eq_nil_of_length_eq_zero (Nat.le_zero.mp hshort)
    have howner : id = model.owner found := Option.some.inj hroute
    rw [← howner] at hfoundOwns
    rw [hfound, hpartitioned.eq_of_className_eq hfoundOwns.1 howns.1
      (hfoundOwns.2.trans howns.2.symm)]
  case direct =>
    intro prereq hprereq member howns
    obtain ⟨found, hfound⟩ := hsome (.single hprereq) howns
    obtain ⟨-, route, hroute, hfirst⟩ := hpartitioned.nearest_of_found hfound
    obtain ⟨place, hplace⟩ := prereqRoute_singleton_iff.mpr hprereq
    have hshort : route.length ≤ 1 := (hfirst [place] prereq member hplace howns).1
    refine ⟨found, hfound, ?_⟩
    match route, hshort with
    | [], _ => exact .inl (Option.some.inj hroute).symm
    | [place'], _ => exact .inr (prereqRoute_singleton_iff.mp ⟨place', hroute⟩)

/-! ## A tie -/

/-- Declares a prereq that is missing, itself, `Bee` and `Ant`. -/
def moth : Parcel :=
  { ant with
    name := "Moth"
    nickname := "Moth"
    prereqs := [⟨"Ghost", none⟩, ⟨"Moth", none⟩, ⟨"Bee", none⟩, ⟨"Ant", none⟩] }

/-- `Ant` and `Bee` have a class `Worker` each, and `Moth` has none. -/
def mothNest : Model :=
  leftBy ((Call.addClass ⟨1⟩ { name := "Worker" }).run
    (leftBy ((Call.addClass ⟨0⟩ { name := "Worker" }).run
      (leftBy ((Call.register moth).run hive)))))

theorem mothNest_reachable : mothNest.Reachable := by
  have hmoth : moth.WellFormed :=
    { name := by decide
      nickname := by decide
      prereqs := by unfold Parcel.NamesParcels; decide
      installed := fun _ => rfl }
  have hhive : hive.Reachable := .call (.call .empty ant_wellFormed) bee_wellFormed
  exact .call (.call (.call hhive hmoth) (mem_parcelIds.mpr (by decide)))
    (mem_parcelIds.mpr (by decide))

/-- `Ant` was registered first, but `Moth` declares `Bee` before it. -/
theorem mothNest_finds_nearest :
    mothNest.Reachable ∧ ⟨2⟩ ∈ mothNest.parcelIds ∧ mothNest.FindsNearest ⟨2⟩ "Worker" ∧
      mothNest.findInScope? ⟨2⟩ "Worker" = some ⟨1⟩ ∧ mothNest.Nearest ⟨2⟩ "Worker" ⟨1⟩ := by
  have hmoth : ⟨2⟩ ∈ mothNest.parcelIds := mem_parcelIds.mpr (by decide)
  have hfinds := findInScope?_finds_nearest mothNest_reachable hmoth "Worker"
  have hworker : mothNest.findInScope? ⟨2⟩ "Worker" = some ⟨1⟩ := by decide
  have howner : mothNest.owner ⟨1⟩ = ⟨1⟩ := by decide
  exact ⟨mothNest_reachable, hmoth, hfinds, hworker,
    howner ▸ (hfinds.nearest ⟨1⟩ hworker).2⟩

end Parcels.Model
