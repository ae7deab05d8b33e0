import Mathlib.Data.List.ReduceOption
import Mathlib.Data.List.Shortlex
import Parcels.Proofs.Graph.BreadthFirst

/-!
# Routes

The edges that leave a node have places, some of which may lead nowhere.  A
route gives the place of each edge that it takes.  When all routes are listed,
shorter ones first and those of one length by their places, a breadth-first
search meets the nodes in the order in which routes first lead to them.
-/

namespace Parcels.Graph

variable {Node : Type}

/-! ## Following places -/

/-- The nodes that the places of a node lead to. -/
def successorsAt (slots : Node → List (Option Node)) (node : Node) : List Node :=
  (slots node).reduceOption

/-- The node that a route leads to, unless one of its places leads nowhere. -/
def follow? (slots : Node → List (Option Node)) (start : Node)
    (route : List Nat) : Option Node :=
  route.foldlM (fun node place => ((slots node)[place]?).join) start

variable {slots : Node → List (Option Node)} {start node : Node}

theorem follow?_snoc_eq_some_iff {route : List Nat} {place : Nat} :
    follow? slots start (route ++ [place]) = some node ↔
      ∃ last, follow? slots start route = some last ∧
        (slots last)[place]? = some (some node) := by
  simp [follow?, List.foldlM_append, Option.bind_eq_some_iff, Option.join_eq_some_iff]

theorem follow?_singleton_eq_some_iff {place : Nat} :
    follow? slots start [place] = some node ↔ (slots start)[place]? = some (some node) := by
  simp [follow?, Option.join_eq_some_iff]

theorem edge_successorsAt_iff {last : Node} :
    Edge (successorsAt slots) last node ↔
      ∃ place : Nat, (slots last)[place]? = some (some node) := by
  rw [Edge, successorsAt, List.reduceOption_mem_iff, List.mem_iff_getElem?]

/-! ## All routes in order -/

/-- The routes that take one more edge, by its place, with their ends. -/
def extensions (slots : Node → List (Option Node)) (before : List Nat × Node) :
    List (List Nat × Node) :=
  (slots before.2).zipIdx.filterMap fun slot =>
    slot.1.map fun node => (before.1 ++ [slot.2], node)

/-- The routes of one length with their ends, by their places. -/
def routesOfLength (slots : Node → List (Option Node)) (start : Node) :
    Nat → List (List Nat × Node)
  | 0 => [([], start)]
  | length + 1 => (routesOfLength slots start length).flatMap (extensions slots)

/-- The routes below a length with their ends, shorter ones first. -/
def routesBelow (slots : Node → List (Option Node)) (start : Node) (length : Nat) :
    List (List Nat × Node) :=
  (List.range length).flatMap (routesOfLength slots start)

theorem mem_extensions_iff {before : List Nat × Node} {route : List Nat} :
    (route, node) ∈ extensions slots before ↔
      ∃ place, (slots before.2)[place]? = some (some node) ∧
        before.1 ++ [place] = route := by
  simp only [extensions, List.mem_filterMap, List.mem_zipIdx_iff_getElem?,
    Option.map_eq_some_iff, Prod.mk.injEq, Prod.exists]
  constructor
  · rintro ⟨_, place, hplace, _, rfl, hroute, rfl⟩
    exact ⟨place, hplace, hroute⟩
  · rintro ⟨place, hplace, hroute⟩
    exact ⟨some node, place, hplace, node, rfl, hroute, rfl⟩

theorem mem_routesOfLength_iff {length : Nat} {route : List Nat} :
    (route, node) ∈ routesOfLength slots start length ↔
      route.length = length ∧ follow? slots start route = some node := by
  induction length generalizing route node with
  | zero =>
      rw [routesOfLength, List.mem_singleton, Prod.mk.injEq, List.length_eq_zero_iff]
      refine and_congr_right ?_
      rintro rfl
      exact eq_comm.trans Option.some_inj.symm
  | succ length ih =>
      simp only [routesOfLength, List.mem_flatMap, Prod.exists, mem_extensions_iff, ih]
      constructor
      · rintro ⟨before, last, ⟨rfl, hlast⟩, place, hplace, rfl⟩
        exact ⟨by simp, follow?_snoc_eq_some_iff.mpr ⟨last, hlast, hplace⟩⟩
      · rintro ⟨hlength, hroute⟩
        obtain rfl | ⟨before, place, rfl⟩ := List.eq_nil_or_concat route
        · cases hlength
        · rw [List.concat_eq_append] at hlength hroute ⊢
          obtain ⟨last, hlast, hplace⟩ := follow?_snoc_eq_some_iff.mp hroute
          exact ⟨before, last, ⟨by simpa using hlength, hlast⟩, place, hplace, rfl⟩

theorem mem_routesBelow_iff {length : Nat} {route : List Nat} :
    (route, node) ∈ routesBelow slots start length ↔
      route.length < length ∧ follow? slots start route = some node := by
  simp only [routesBelow, List.mem_flatMap, List.mem_range, mem_routesOfLength_iff]
  constructor
  · rintro ⟨_, hlength, rfl, hroute⟩
    exact ⟨hlength, hroute⟩
  · rintro ⟨hlength, hroute⟩
    exact ⟨_, hlength, rfl, hroute⟩

theorem lex_append_of_length_eq {first second : List Nat}
    (hlex : List.Lex (· < ·) first second) (hlength : first.length = second.length)
    (more more' : List Nat) : List.Lex (· < ·) (first ++ more) (second ++ more') := by
  induction hlex with
  | nil => cases hlength
  | cons _ ih => exact .cons (ih (Nat.succ.inj hlength))
  | rel hplace => exact .rel hplace

theorem pairwise_extensions (before : List Nat × Node) :
    (extensions slots before).Pairwise fun first second =>
      List.Lex (· < ·) first.1 second.1 := by
  have hplaces : (slots before.2).zipIdx.Pairwise fun left right => left.2 < right.2 := by
    rw [← List.pairwise_map, List.zipIdx_map_snd]
    exact List.pairwise_lt_range' 1
  refine List.pairwise_filterMap.mpr (hplaces.imp ?_)
  intro left right hplace first hfirst second hsecond
  obtain ⟨_, _, rfl⟩ := Option.map_eq_some_iff.mp hfirst
  obtain ⟨_, _, rfl⟩ := Option.map_eq_some_iff.mp hsecond
  exact List.Lex.append_left _ (.rel hplace) before.1

theorem pairwise_routesOfLength (length : Nat) :
    (routesOfLength slots start length).Pairwise fun first second =>
      List.Lex (· < ·) first.1 second.1 := by
  induction length with
  | zero => exact List.pairwise_singleton _ _
  | succ length ih =>
      refine List.pairwise_flatMap.mpr ⟨fun before _ => pairwise_extensions before, ?_⟩
      refine ih.imp_of_mem ?_
      rintro ⟨left, leftEnd⟩ ⟨right, rightEnd⟩ hleft hright hlex
        ⟨first, firstEnd⟩ hfirst ⟨second, secondEnd⟩ hsecond
      obtain ⟨place, _, rfl⟩ := mem_extensions_iff.mp hfirst
      obtain ⟨place', _, rfl⟩ := mem_extensions_iff.mp hsecond
      refine lex_append_of_length_eq hlex ?_ [place] [place']
      rw [(mem_routesOfLength_iff.mp hleft).1, (mem_routesOfLength_iff.mp hright).1]

/-- The list of all routes is sorted by length and then by places. -/
theorem pairwise_routesBelow (length : Nat) :
    (routesBelow slots start length).Pairwise fun first second =>
      List.Shortlex (· < ·) first.1 second.1 := by
  have hlength : ∀ {place : Nat} {route : List Nat × Node},
      route ∈ routesOfLength slots start place → route.1.length = place := fun hroute =>
    (mem_routesOfLength_iff.mp hroute).1
  refine List.pairwise_flatMap.mpr ⟨fun exact _ => ?_, ?_⟩
  · refine (pairwise_routesOfLength exact).imp_of_mem ?_
    intro first second hfirst hsecond hlex
    exact .of_lex ((hlength hfirst).trans (hlength hsecond).symm) hlex
  · refine List.pairwise_lt_range.imp ?_
    intro shorter longer hlt first hfirst second hsecond
    exact .of_length_lt (by rwa [hlength hfirst, hlength hsecond])

end Parcels.Graph
