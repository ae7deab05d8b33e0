import Parcels.Proofs.Graph.Preorder

/-!
# Walks with a stack

A preorder can be listed with a stack: the node on top is met, and its
successors take its place.  Such a walk keeps no record of what it has met, so
where there are cycles it may go on for ever.  From nodes that lead to no cycle
it ends, and it has then met their preorders, one behind the other.
-/

namespace Parcels.Graph

variable {Node : Type}

/-- A walk under way: the nodes met so far and the nodes still to be met, the
next one first. -/
structure StackWalk (Node : Type) where
  met : List Node
  stack : List Node

namespace StackWalk

/-- The node on top of the stack is met, and its successors take its place. -/
inductive Step (successors : Node → List Node) : StackWalk Node → StackWalk Node → Prop
  | meet (met : List Node) (top : Node) (rest : List Node) :
      Step successors ⟨met, top :: rest⟩ ⟨met ++ [top], successors top ++ rest⟩

abbrev Steps (successors : Node → List Node) : StackWalk Node → StackWalk Node → Prop :=
  Relation.ReflTransGen (Step successors)

/-- Nothing has been met. -/
def start (nodes : List Node) : StackWalk Node :=
  ⟨[], nodes⟩

/-- From `nodes`, a walk meets the nodes of `order` one after another, and it
ends when it has met all of them. -/
structure Meets (successors : Node → List Node) (nodes order : List Node) : Prop where
  ends : Acc (fun after before => Step successors before after) (start nodes)
  along : ∀ walk, Steps successors (start nodes) walk → walk.met <+: order
  whole : ∀ walk, Steps successors (start nodes) walk → walk.stack = [] → walk.met = order

variable {successors : Node → List Node} {bound : Nat} {walk first second : StackWalk Node}

theorem Step.unique (hfirst : Step successors walk first)
    (hsecond : Step successors walk second) : first = second := by
  cases hfirst
  cases hsecond
  rfl

theorem Step.stack_ne_nil (hstep : Step successors first second) : first.stack ≠ [] := by
  cases hstep
  exact List.cons_ne_nil _ _

theorem Step.met_prefix (hstep : Step successors first second) : first.met <+: second.met := by
  cases hstep
  exact List.prefix_append _ _

theorem met_prefix_of_steps (hsteps : Steps successors first second) :
    first.met <+: second.met := by
  induction hsteps with
  | refl => exact List.prefix_refl _
  | tail _ hstep ih => exact ih.trans hstep.met_prefix

/-- A walk with an empty stack does not go on. -/
theorem eq_of_steps (hempty : first.stack = []) (hsteps : Steps successors first second) :
    second = first := by
  rcases Relation.ReflTransGen.cases_head hsteps with heq | ⟨next, hstep, _⟩
  · exact heq.symm
  · exact absurd hempty hstep.stack_ne_nil

/-- There is one way to go on, so all walks lead to the end of one of them. -/
theorem steps_end {last : StackWalk Node} (hend : last.stack = [])
    (hlast : Steps successors first last) (hsteps : Steps successors first second) :
    Steps successors second last := by
  have hunique : Relator.RightUnique (Step successors) :=
    fun _ _ _ hone hother => hone.unique hother
  rcases Relation.ReflTransGen.total_of_right_unique hunique hlast hsteps with hback | hforth
  · rw [eq_of_steps hend hback]
  · exact hforth

theorem acc_of_steps {last : StackWalk Node} (hend : last.stack = [])
    (hlast : Steps successors first last) :
    Acc (fun after before => Step successors before after) first := by
  induction hlast using Relation.ReflTransGen.head_induction_on with
  | refl => exact .intro _ fun _ hstep => absurd hend hstep.stack_ne_nil
  | head hstep _ ih => exact .intro _ fun _ hother => hstep.unique hother ▸ ih

/-- The nodes on top of a stack give way to their preorders. -/
theorem steps_preorders {nodes : List Node}
    (hdepth : ∀ node ∈ nodes, WithinDepth successors bound node) (met rest : List Node) :
    Steps successors ⟨met, nodes ++ rest⟩
      ⟨met ++ nodes.flatMap (preorder successors bound), rest⟩ := by
  induction bound generalizing nodes met rest with
  | zero =>
      have hnodes : nodes = [] :=
        List.eq_nil_iff_forall_not_mem.mpr fun node hnode => hdepth node hnode
      simpa [hnodes] using Relation.ReflTransGen.refl
  | succ bound ih =>
      induction nodes generalizing met with
      | nil => simpa using Relation.ReflTransGen.refl
      | cons node nodes ihNodes =>
          obtain ⟨hnode, hnodes⟩ := List.forall_mem_cons.mp hdepth
          have hpreorder : met ++ [node] ++ (successors node).flatMap (preorder successors bound) =
              met ++ preorder successors (bound + 1) node := by
            rw [preorder, List.append_assoc, List.singleton_append]
          have hbelow := ih hnode (met ++ [node]) (nodes ++ rest)
          rw [hpreorder] at hbelow
          have hothers := ihNodes hnodes (met ++ preorder successors (bound + 1) node)
          rw [List.append_assoc, ← List.flatMap_cons] at hothers
          exact .head (.meet met node (nodes ++ rest)) (hbelow.trans hothers)

/-- Nodes that lead no deeper than the bound are walked through to the end. -/
theorem meets_preorders {nodes : List Node}
    (hdepth : ∀ node ∈ nodes, WithinDepth successors bound node) :
    Meets successors nodes (nodes.flatMap (preorder successors bound)) := by
  have hwalk := steps_preorders hdepth [] []
  rw [List.append_nil, List.nil_append] at hwalk
  refine ⟨acc_of_steps rfl hwalk, fun walk hsteps => ?_, fun walk hsteps hempty => ?_⟩
  · exact met_prefix_of_steps (steps_end rfl hwalk hsteps)
  · rw [← eq_of_steps hempty (steps_end rfl hwalk hsteps)]

end StackWalk

end Parcels.Graph
