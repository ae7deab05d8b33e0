import Parcels.Proofs.Graph.Routes

/-!
# The order of a breadth-first search

A breadth-first search meets a node where the first of all routes leads to it,
shorter routes coming first and routes of one length by their places.  What the
search leaves out are routes that lead on from a node met before, and these lead
nowhere new.
-/

namespace Parcels.Graph

variable {Node : Type} {slots : Node → List (Option Node)} {start node : Node}

/-- The ends of the routes of one length, by the places of the routes. -/
def endsAt (slots : Node → List (Option Node)) (start : Node) (length : Nat) :
    List Node :=
  (routesOfLength slots start length).map Prod.snd

/-- The ends of the routes below a length, shorter routes first. -/
def endsBelow (slots : Node → List (Option Node)) (start : Node) (length : Nat) :
    List Node :=
  (routesBelow slots start length).map Prod.snd

theorem map_snd_extensions (before : List Nat × Node) :
    (extensions slots before).map Prod.snd = successorsAt slots before.2 := by
  have htarget : ∀ slot : Option Node × Nat,
      (slot.1.map fun node => (before.1 ++ [slot.2], node)).map Prod.snd = slot.1 := by
    rintro ⟨target, place⟩
    cases target <;> rfl
  calc (extensions slots before).map Prod.snd
      = (slots before.2).zipIdx.filterMap (id ∘ Prod.fst) := by
        simp only [extensions, List.map_filterMap, htarget]
        rfl
    _ = ((slots before.2).zipIdx.map Prod.fst).filterMap id := List.filterMap_map.symm
    _ = successorsAt slots before.2 := by
        rw [List.zipIdx_map_fst]
        rfl

theorem endsAt_succ (length : Nat) :
    endsAt slots start (length + 1) =
      (endsAt slots start length).flatMap (successorsAt slots) := by
  rw [endsAt, routesOfLength, List.map_flatMap, endsAt, List.flatMap_map]
  exact List.flatMap_congr fun before _ => map_snd_extensions before

theorem endsBelow_succ (length : Nat) :
    endsBelow slots start (length + 1) =
      endsBelow slots start length ++ endsAt slots start length := by
  rw [endsBelow, routesBelow, List.range_succ, List.flatMap_append, List.map_append,
    List.flatMap_singleton]
  rfl

/-- What a route leads to, a longer one by an edge leads on from. -/
theorem successorsAt_subset_endsBelow {length : Nat}
    (hnode : node ∈ endsBelow slots start length) :
    successorsAt slots node ⊆ endsBelow slots start (length + 1) := by
  intro next hnext
  obtain ⟨⟨route, _⟩, hroute, rfl⟩ := List.mem_map.mp hnode
  obtain ⟨place, hplace⟩ := edge_successorsAt_iff.mp hnext
  obtain ⟨hlength, hfollow⟩ := mem_routesBelow_iff.mp hroute
  refine List.mem_map.mpr ⟨(route ++ [place], next), mem_routesBelow_iff.mpr ⟨?_, ?_⟩, rfl⟩
  · simpa using hlength
  · exact follow?_snoc_eq_some_iff.mpr ⟨_, hfollow, hplace⟩

/-! ## Repetitions -/

section Repetitions

variable [DecidableEq Node]

theorem removeAll_congr {nodes left right : List Node}
    (hsame : ∀ node, node ∈ left ↔ node ∈ right) :
    nodes.removeAll left = nodes.removeAll right :=
  List.filter_congr fun node _ => by simp [hsame node]

/-- The parts of what is repeated add nothing new. -/
theorem eraseDups_flatMap_eraseDups (parts : Node → List Node) (nodes : List Node) :
    (nodes.eraseDups.flatMap parts).eraseDups = (nodes.flatMap parts).eraseDups := by
  induction nodes using List.reverseRecOn with
  | nil => rfl
  | append_singleton nodes last ih =>
      rw [eraseDups_append_singleton, List.flatMap_append, List.flatMap_singleton,
        List.eraseDups_append]
      split
      · next hlast =>
        have hnothing : (parts last).removeAll (nodes.flatMap parts) = [] := by
          refine List.filter_eq_nil_iff.mpr fun part hpart => ?_
          have hmem := List.mem_flatMap_of_mem (List.mem_eraseDups.mp hlast) hpart
          simpa using hmem
        rw [hnothing, ih]
        simp
      · rw [List.flatMap_append, List.flatMap_singleton, List.eraseDups_append, ih]
        congr 2
        apply removeAll_congr
        simp

theorem findSome?_eraseDups {Result : Type} (hit : Node → Option Result)
    (nodes : List Node) : nodes.eraseDups.findSome? hit = nodes.findSome? hit := by
  induction nodes using List.reverseRecOn with
  | nil => rfl
  | append_singleton nodes last ih =>
      rw [eraseDups_append_singleton, List.findSome?_append, ← ih]
      split
      · next hlast =>
        cases hfound : nodes.eraseDups.findSome? hit with
        | some result => rfl
        | none => simp [List.findSome?_eq_none_iff.mp hfound last hlast]
      · rw [List.findSome?_append]

end Repetitions

/-! ## Levels -/

section Levels

variable [DecidableEq Node]

/-- The nodes to which routes of this length lead but no shorter ones. -/
def newEnds (slots : Node → List (Option Node)) (start : Node) (length : Nat) :
    List Node :=
  ((endsAt slots start length).removeAll (endsBelow slots start length)).eraseDups

theorem eraseDups_endsBelow_succ (length : Nat) :
    (endsBelow slots start (length + 1)).eraseDups =
      (endsBelow slots start length).eraseDups ++ newEnds slots start length := by
  rw [endsBelow_succ, List.eraseDups_append]
  rfl

/-- A node that shorter routes lead to leads to nothing that is new. -/
theorem flatMap_removeAll_endsBelow (nodes : List Node) (length : Nat) :
    (nodes.removeAll (endsBelow slots start length)).flatMap (fun node =>
        (successorsAt slots node).removeAll (endsBelow slots start (length + 1))) =
      nodes.flatMap fun node =>
        (successorsAt slots node).removeAll (endsBelow slots start (length + 1)) := by
  have hnothing : ∀ node ∈ endsBelow slots start length,
      (successorsAt slots node).removeAll (endsBelow slots start (length + 1)) = [] := by
    intro node hnode
    refine List.filter_eq_nil_iff.mpr fun next hnext => ?_
    simpa using successorsAt_subset_endsBelow hnode hnext
  induction nodes with
  | nil => rfl
  | cons head tail ih =>
      by_cases hhead : head ∈ endsBelow slots start length
      · rw [List.flatMap_cons, hnothing head hhead, List.nil_append, ← ih]
        simp [List.removeAll, hhead]
      · rw [List.flatMap_cons, ← ih]
        simp [List.removeAll, hhead]

/-- The level that follows in a search that has seen the ends of all routes so
far. -/
theorem nextLevel_newEnds (length : Nat) :
    nextLevel (successorsAt slots) (endsBelow slots start (length + 1)).eraseDups
      (newEnds slots start length) = newEnds slots start (length + 1) := by
  have hseen : ∀ nodes : List Node, nodes.filter (fun node =>
        !(endsBelow slots start (length + 1)).eraseDups.contains node) =
      nodes.removeAll (endsBelow slots start (length + 1)) := fun nodes =>
    List.filter_congr fun node _ => by simp
  calc nextLevel (successorsAt slots) (endsBelow slots start (length + 1)).eraseDups
        (newEnds slots start length)
      = ((newEnds slots start length).flatMap fun node =>
          (successorsAt slots node).removeAll
            (endsBelow slots start (length + 1))).eraseDups := by
        rw [nextLevel, hseen, List.removeAll, List.filter_flatMap]
        rfl
    _ = ((endsAt slots start length).flatMap fun node =>
          (successorsAt slots node).removeAll
            (endsBelow slots start (length + 1))).eraseDups := by
        rw [newEnds, eraseDups_flatMap_eraseDups, flatMap_removeAll_endsBelow]
    _ = newEnds slots start (length + 1) := by
        rw [newEnds, endsAt_succ, List.removeAll, List.filter_flatMap]
        rfl

/-- The levels from one length on add the ends of the longer routes. -/
theorem eraseDups_endsBelow_add (length bound : Nat) :
    (endsBelow slots start length).eraseDups ++
        (levels (successorsAt slots) bound (endsBelow slots start (length + 1)).eraseDups
          (newEnds slots start length)).flatten =
      (endsBelow slots start (length + bound)).eraseDups := by
  induction bound generalizing length with
  | zero => simp [levels]
  | succ bound ih =>
      calc (endsBelow slots start length).eraseDups ++
            (levels (successorsAt slots) (bound + 1)
              (endsBelow slots start (length + 1)).eraseDups
              (newEnds slots start length)).flatten
          = (endsBelow slots start length).eraseDups ++ (newEnds slots start length ++
              (levels (successorsAt slots) bound
                (endsBelow slots start (length + 1 + 1)).eraseDups
                (newEnds slots start (length + 1))).flatten) := by
            rw [eraseDups_endsBelow_succ (length + 1), ← nextLevel_newEnds]
            cases newEnds slots start length with
            | nil => simp [nextLevel, levels_nil]
            | cons head tail => simp [levels]
        _ = (endsBelow slots start (length + 1)).eraseDups ++
              (levels (successorsAt slots) bound
                (endsBelow slots start (length + 1 + 1)).eraseDups
                (newEnds slots start (length + 1))).flatten := by
            rw [← List.append_assoc, ← eraseDups_endsBelow_succ]
        _ = (endsBelow slots start (length + 1 + bound)).eraseDups := ih (length + 1)
        _ = (endsBelow slots start (length + (bound + 1))).eraseDups := by
            rw [Nat.add_right_comm, Nat.add_assoc]

/-- A breadth-first search lists the ends of all routes below its bound, each
node at the first route that leads to it. -/
theorem breadthFirst_eq (bound : Nat) :
    breadthFirst (successorsAt slots) bound start =
      (endsBelow slots start bound).eraseDups := by
  calc breadthFirst (successorsAt slots) bound start
      = (endsBelow slots start (0 + bound)).eraseDups := eraseDups_endsBelow_add 0 bound
    _ = (endsBelow slots start bound).eraseDups := by rw [Nat.zero_add]

/-- The first hit of a search lies at the end of the first route to a hit. -/
theorem findSome?_breadthFirst_eq_some {Result : Type} {hit : Node → Option Result}
    {bound : Nat} {result : Result}
    (hfound : (breadthFirst (successorsAt slots) bound start).findSome? hit = some result) :
    ∃ route node, follow? slots start route = some node ∧ hit node = some result ∧
      ∀ route' node', follow? slots start route' = some node' → (hit node').isSome →
        route = route' ∨ List.Shortlex (· < ·) route route' := by
  rw [breadthFirst_eq, findSome?_eraseDups, endsBelow, List.findSome?_map] at hfound
  obtain ⟨before, ⟨route, node⟩, after, hsplit, hhit, hbefore⟩ :=
    List.findSome?_eq_some_iff.mp hfound
  have hroute : (route, node) ∈ routesBelow slots start bound := by simp [hsplit]
  obtain ⟨hlength, hfollow⟩ := mem_routesBelow_iff.mp hroute
  refine ⟨route, node, hfollow, hhit, ?_⟩
  intro route' node' hfollow' hhit'
  rcases Nat.lt_or_ge route'.length bound with hlength' | hlength'
  · have hmem : (route', node') ∈ routesBelow slots start bound :=
      mem_routesBelow_iff.mpr ⟨hlength', hfollow'⟩
    have hsorted : (routesBelow slots start bound).Pairwise fun first second =>
        List.Shortlex (· < ·) first.1 second.1 := pairwise_routesBelow bound
    rw [hsplit] at hmem hsorted
    rcases List.mem_append.mp hmem with hearlier | hlater
    · have hnone : hit node' = none := hbefore _ hearlier
      simp [hnone] at hhit'
    · rcases List.mem_cons.mp hlater with hsame | hafter
      · exact .inl (congrArg Prod.fst hsame).symm
      · have htail := (List.pairwise_append.mp hsorted).2.1
        exact .inr (List.rel_of_pairwise_cons htail hafter)
  · exact .inr (.of_length_lt (Nat.lt_of_lt_of_le hlength hlength'))

end Levels

end Parcels.Graph
