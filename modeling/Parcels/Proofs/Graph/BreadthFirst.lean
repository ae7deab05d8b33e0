import Mathlib.Data.List.Basic
import Mathlib.Data.List.Induction
import Parcels.Proofs.Graph.Reachability

/-!
# Breadth-first search

What a breadth-first search lists can be reached from where it starts.  Which
nodes it lists in which order does not depend on what the nodes are.
-/

namespace Parcels.Graph

variable {Node : Type} [DecidableEq Node] {successors : Node → List Node}

theorem mem_nextLevel_iff {seen level : List Node} {node : Node} :
    node ∈ nextLevel successors seen level ↔
      (∃ before ∈ level, Edge successors before node) ∧ node ∉ seen := by
  simp [nextLevel, List.mem_eraseDups, Edge]

theorem levels_nil (successors : Node → List Node) (bound : Nat) (seen : List Node) :
    levels successors bound seen [] = [] := by
  cases bound <;> rfl

theorem reaches_of_mem_levels {start : Node} {bound : Nat}
    {seen level : List Node} {node : Node}
    (hlevel : ∀ other ∈ level, Reaches successors start other)
    (hnode : node ∈ (levels successors bound seen level).flatten) :
    Reaches successors start node := by
  induction bound generalizing seen level with
  | zero => simp [levels] at hnode
  | succ bound ih =>
      cases level with
      | nil => simp [levels] at hnode
      | cons head tail =>
          simp only [levels, List.flatten_cons, List.mem_append] at hnode
          rcases hnode with hhere | hfurther
          · exact hlevel node hhere
          · refine ih ?_ hfurther
            intro other hother
            obtain ⟨⟨before, hbefore, hedge⟩, _⟩ := mem_nextLevel_iff.mp hother
            exact (hlevel before hbefore).tail hedge

theorem reaches_of_mem_breadthFirst {start node : Node} {bound : Nat}
    (hnode : node ∈ breadthFirst successors bound start) :
    Reaches successors start node := by
  refine reaches_of_mem_levels ?_ hnode
  intro other hother
  obtain rfl := List.mem_singleton.mp hother
  exact .refl

/-! ## Repetitions -/

theorem eraseDups_append_singleton (nodes : List Node) (last : Node) :
    (nodes ++ [last]).eraseDups =
      if last ∈ nodes.eraseDups then nodes.eraseDups
      else nodes.eraseDups ++ [last] := by
  rw [List.eraseDups_append]
  by_cases hlast : last ∈ nodes
  · simp [hlast, List.removeAll]
  · simp [hlast, List.removeAll, List.eraseDups_cons]

theorem nodup_eraseDups (nodes : List Node) : nodes.eraseDups.Nodup := by
  induction nodes using List.reverseRecOn with
  | nil => exact List.nodup_nil
  | append_singleton nodes last ih =>
      rw [eraseDups_append_singleton]
      split
      · exact ih
      · next hlast => exact List.nodup_append.mpr ⟨ih, by simp, by grind⟩

/-! ## Renamed nodes -/

section Renamed

variable {Renamed : Type} [DecidableEq Renamed] {rename : Node → Renamed}
  {successors' : Renamed → List Renamed} (hinjective : Function.Injective rename)

include hinjective

theorem eraseDups_map (nodes : List Node) :
    (nodes.map rename).eraseDups = nodes.eraseDups.map rename := by
  induction nodes using List.reverseRecOn with
  | nil => rfl
  | append_singleton nodes last ih =>
      rw [List.map_append, List.map_singleton, eraseDups_append_singleton,
        eraseDups_append_singleton, ih]
      by_cases hlast : last ∈ nodes.eraseDups
      · rw [if_pos (List.mem_map_of_mem hlast), if_pos hlast]
      · rw [if_neg, if_neg hlast, List.map_append, List.map_singleton]
        rwa [List.mem_map_of_injective hinjective]

variable (hsuccessors : ∀ node, successors' (rename node) = (successors node).map rename)

include hsuccessors

theorem nextLevel_map (seen level : List Node) :
    nextLevel successors' (seen.map rename) (level.map rename) =
      (nextLevel successors seen level).map rename := by
  have hfresh : (fun node => !(seen.map rename).contains node) ∘ rename =
      fun node => !seen.contains node := by
    funext node
    simp [hinjective.eq_iff]
  rw [nextLevel, nextLevel, ← eraseDups_map hinjective, List.flatMap_map]
  simp only [hsuccessors]
  rw [← List.map_flatMap, List.filter_map, hfresh]

theorem levels_map (bound : Nat) (seen level : List Node) :
    levels successors' bound (seen.map rename) (level.map rename) =
      (levels successors bound seen level).map (List.map rename) := by
  induction bound generalizing seen level with
  | zero => rfl
  | succ bound ih =>
      cases level with
      | nil => rfl
      | cons head tail =>
          have hnext := nextLevel_map hinjective hsuccessors seen (head :: tail)
          rw [List.map_cons] at hnext
          simp only [List.map_cons, levels, hnext, ← List.map_append, ih]

/-- A search meets renamed nodes in the same order. -/
theorem breadthFirst_map (bound : Nat) (start : Node) :
    breadthFirst successors' bound (rename start) =
      (breadthFirst successors bound start).map rename := by
  rw [breadthFirst, breadthFirst, List.map_flatten,
    ← levels_map hinjective hsuccessors]
  rfl

end Renamed

end Parcels.Graph
