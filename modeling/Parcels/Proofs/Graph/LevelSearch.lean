import Mathlib.Data.List.Nodup
import Mathlib.Data.List.Perm.Subperm
import Parcels.Proofs.Graph.BreadthFirst

/-!
# Searches that stop at a hit

Such a search goes from level to level until one holds a hit or is empty.  It
notes every node that it meets, so each further level takes up nodes that it had
not met before.  There are finitely many of these, so it ends on cycles as well.
-/

namespace Parcels.Graph

variable {Node Result : Type} [DecidableEq Node]

/-- The nodes met so far, and those among them that make up the next level. -/
structure Meeting (Node : Type) where
  met : List Node
  next : List Node

/-- A node that was met before is passed over. -/
def Meeting.meet (meeting : Meeting Node) (node : Node) : Meeting Node :=
  if node ∈ meeting.met then meeting
  else ⟨meeting.met ++ [node], meeting.next ++ [node]⟩

/-- The successors of a level are met one after another. -/
def meetSuccessors (successors : Node → List Node) (met level : List Node) :
    Meeting Node :=
  (level.flatMap successors).foldl Meeting.meet ⟨met, []⟩

/-- A search that has met the nodes `met` and is about to go through `level`
ends, and this is its answer. -/
inductive LevelSearch (successors : Node → List Node) (hit : Node → Option Result) :
    (met level : List Node) → Option Result → Prop
  | exhausted (met : List Node) : LevelSearch successors hit met [] none
  | found {met level : List Node} {result : Result}
      (first : level.findSome? hit = some result) :
      LevelSearch successors hit met level (some result)
  | further {met level : List Node} {answer : Option Result}
      (nonempty : level ≠ []) (missed : level.findSome? hit = none)
      (rest : LevelSearch successors hit (meetSuccessors successors met level).met
        (meetSuccessors successors met level).next answer) :
      LevelSearch successors hit met level answer

variable {successors : Node → List Node} {hit : Node → Option Result}
variable {met level : List Node} {answer : Option Result}

theorem foldl_meet (met nodes : List Node) :
    nodes.foldl Meeting.meet ⟨met, []⟩ =
      ⟨met ++ (nodes.filter fun node => !met.contains node).eraseDups,
        (nodes.filter fun node => !met.contains node).eraseDups⟩ := by
  induction nodes using List.reverseRecOn with
  | nil => simp
  | append_singleton nodes last ih =>
      rw [List.foldl_append, ih, List.filter_append]
      generalize (nodes.filter fun node => !met.contains node) = new
      by_cases hmet : last ∈ met
      · simp [Meeting.meet, hmet]
      · have hlast : ([last].filter fun node => !met.contains node) = [last] := by
          simp [hmet]
        rw [hlast, eraseDups_append_singleton, List.foldl_cons, List.foldl_nil, Meeting.meet]
        by_cases hagain : last ∈ new.eraseDups
        · rw [if_pos (List.mem_append_right met hagain), if_pos hagain]
        · rw [if_neg (by simp [hmet, hagain]), if_neg hagain, List.append_assoc]

theorem meetSuccessors_eq (successors : Node → List Node) (met level : List Node) :
    meetSuccessors successors met level =
      ⟨met ++ nextLevel successors met level, nextLevel successors met level⟩ :=
  foldl_meet met _

theorem LevelSearch.unique {other : Option Result}
    (hsearch : LevelSearch successors hit met level answer)
    (hother : LevelSearch successors hit met level other) : answer = other := by
  induction hsearch with
  | exhausted met =>
      cases hother with
      | exhausted => rfl
      | found hfirst => cases hfirst
      | further hnonempty => exact absurd rfl hnonempty
  | found hfirst =>
      cases hother with
      | exhausted => cases hfirst
      | found hother => exact hfirst.symm.trans hother
      | further _ hmissed => rw [hmissed] at hfirst; cases hfirst
  | further hnonempty hmissed _ ih =>
      cases hother with
      | exhausted => exact absurd rfl hnonempty
      | found hfirst => rw [hmissed] at hfirst; cases hfirst
      | further _ _ hrest => exact ih hrest

/-- A search that ends without a hit has gone through all that can be reached. -/
theorem LevelSearch.missed_of_reaches
    (hsearch : LevelSearch successors hit met level answer) (hnone : answer = none)
    (hdone : ∀ node ∈ met, node ∉ level →
      hit node = none ∧ ∀ next ∈ successors node, next ∈ met)
    {start node : Node} (hstart : start ∈ met)
    (hpath : Reaches successors start node) : hit node = none := by
  induction hsearch with
  | exhausted met =>
      have hmet : node ∈ met := hpath.within (· ∈ met)
        (fun node hnode => (hdone node hnode List.not_mem_nil).2) hstart
      exact (hdone node hmet List.not_mem_nil).1
  | found => cases hnone
  | @further met level answer _ hmissed _ ih =>
      rw [meetSuccessors_eq] at ih
      refine ih hnone ?_ (List.mem_append_left _ hstart)
      intro other hother hnotNext
      have hmet : other ∈ met := by
        rcases List.mem_append.mp hother with hmet | hnext
        · exact hmet
        · exact absurd hnext hnotNext
      by_cases hlevel : other ∈ level
      · refine ⟨List.findSome?_eq_none_iff.mp hmissed other hlevel, ?_⟩
        intro next hnext
        rw [List.mem_append, mem_nextLevel_iff]
        by_cases hold : next ∈ met
        · exact .inl hold
        · exact .inr ⟨⟨other, hlevel, hnext⟩, hold⟩
      · obtain ⟨hmiss, hclosed⟩ := hdone other hmet hlevel
        exact ⟨hmiss, fun next hnext => List.mem_append_left _ (hclosed next hnext)⟩

/-! ## Searches end -/

/-- Each level but the last adds to the nodes met, so when no more are left than
the bound allows levels, the search ends within the bound. -/
theorem levelSearch_levels {nodes : List Node} {bound : Nat}
    (hclosed : ∀ node, successors node ⊆ nodes) (hnodup : met.Nodup)
    (hmet : met ⊆ nodes) (hbound : nodes.length < bound + met.length) :
    LevelSearch successors hit met level
      ((levels successors bound met level).flatten.findSome? hit) := by
  induction bound generalizing met level with
  | zero =>
      have hfew := (List.subperm_of_subset hnodup hmet).length_le
      omega
  | succ bound ih =>
      cases level with
      | nil => exact .exhausted met
      | cons head tail =>
          simp only [levels, List.flatten_cons, List.findSome?_append]
          cases hfirst : (head :: tail).findSome? hit with
          | some result => exact .found hfirst
          | none =>
              refine .further (List.cons_ne_nil _ _) hfirst ?_
              rw [meetSuccessors_eq, Option.none_or]
              by_cases hend : nextLevel successors met (head :: tail) = []
              · rw [hend, levels_nil]
                exact .exhausted _
              · apply ih
                · refine List.nodup_append.mpr ⟨hnodup, nodup_eraseDups _, ?_⟩
                  rintro node hmet' _ hnext rfl
                  exact (mem_nextLevel_iff.mp hnext).2 hmet'
                · intro node hnode
                  rcases List.mem_append.mp hnode with hold | hnext
                  · exact hmet hold
                  · obtain ⟨⟨before, _, hedge⟩, _⟩ := mem_nextLevel_iff.mp hnext
                    exact hclosed before hedge
                · have hpos := List.length_pos_iff.mpr hend
                  rw [List.length_append]
                  omega

/-- From a node among finitely many that no edge leaves, a search ends. -/
theorem levelSearch_breadthFirst {nodes : List Node} {start : Node}
    (hclosed : ∀ node, successors node ⊆ nodes) (hstart : start ∈ nodes) :
    LevelSearch successors hit [start] [start]
      ((breadthFirst successors nodes.length start).findSome? hit) :=
  levelSearch_levels hclosed (List.nodup_singleton start)
    (by simpa using hstart) (by simp)

end Parcels.Graph
