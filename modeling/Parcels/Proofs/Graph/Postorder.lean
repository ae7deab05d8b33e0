import Mathlib.Data.List.Perm.Subperm
import Parcels.Proofs.Graph.Reachability
import Parcels.Proofs.Order

/-!
# Postorder

A depth-first search leaves every node once, and a node that lies on no cycle
after everything that it leads to.  A node on a cycle gives no such promise,
not even for what lies beyond the cycle.
-/

namespace Parcels.Graph

variable {Node : Type}

namespace Visit

/-- The node has been entered and has not been left. -/
def Open (state : Visit Node) (node : Node) : Prop :=
  node ∈ state.entered ∧ node ∉ state.left

/-- What a search has established, apart from the nodes that are open. -/
structure Sound (successors : Node → List Node) (known : List Node)
    (state : Visit Node) : Prop where
  entered_nodup : state.entered.Nodup
  entered_known : state.entered ⊆ known
  left_nodup : state.left.Nodup
  left_entered : state.left ⊆ state.entered
  successors_entered : ∀ node ∈ state.left, successors node ⊆ state.entered
  ordered : ∀ node ∈ state.left, ¬ OnCycle successors node → ∀ other,
    ReachesBeyond successors node other → Precedes state.left other node

/-- What a visit adds, leaving the open nodes as they were. -/
structure Extends (before after : Visit Node) : Prop where
  entered_subset : before.entered ⊆ after.entered
  left_prefix : before.left <+: after.left
  open_iff : ∀ node, after.Open node ↔ before.Open node

theorem Extends.refl (state : Visit Node) : Extends state state :=
  ⟨List.Subset.refl _, List.prefix_refl _, fun _ => Iff.rfl⟩

theorem Extends.trans {first second third : Visit Node}
    (hfirst : Extends first second) (hsecond : Extends second third) :
    Extends first third :=
  ⟨List.Subset.trans hfirst.entered_subset hsecond.entered_subset,
    hfirst.left_prefix.trans hsecond.left_prefix,
    fun node => (hsecond.open_iff node).trans (hfirst.open_iff node)⟩

theorem Sound.empty (successors : Node → List Node) (known : List Node) :
    Sound successors known {} where
  entered_nodup := List.nodup_nil
  entered_known := List.nil_subset _
  left_nodup := List.nodup_nil
  left_entered := List.nil_subset _
  successors_entered := by simp
  ordered := by simp

variable {successors : Node → List Node} {known : List Node}

theorem Sound.enter {state : Visit Node} {node : Node}
    (hsound : state.Sound successors known) (hknown : node ∈ known)
    (hnew : node ∉ state.entered) :
    Sound successors known { state with entered := node :: state.entered } where
  entered_nodup := List.nodup_cons.mpr ⟨hnew, hsound.entered_nodup⟩
  entered_known := List.cons_subset.mpr ⟨hknown, hsound.entered_known⟩
  left_nodup := hsound.left_nodup
  left_entered := List.subset_cons_of_subset _ hsound.left_entered
  successors_entered := fun other hother =>
    List.subset_cons_of_subset _ (hsound.successors_entered other hother)
  ordered := hsound.ordered

theorem open_enter_iff {state : Visit Node} {node other : Node}
    (hnew : node ∉ state.left) :
    Open { state with entered := node :: state.entered } other ↔
      other = node ∨ state.Open other := by
  simp only [Open, List.mem_cons]
  constructor
  · rintro ⟨hsame | hentered, hleft⟩
    · exact .inl hsame
    · exact .inr ⟨hentered, hleft⟩
  · rintro (rfl | ⟨hentered, hleft⟩)
    · exact ⟨.inl rfl, hnew⟩
    · exact ⟨.inr hentered, hleft⟩

/-- What lies beyond a node has been left, if all open nodes lead to the node
and no cycle leads back to it. -/
theorem Sound.left_of_reachesBeyond {state : Visit Node} {node other : Node}
    (hsound : state.Sound successors known)
    (hentered : successors node ⊆ state.entered)
    (hopen : ∀ other, state.Open other → Reaches successors other node)
    (hacyclic : ¬ OnCycle successors node)
    (hbeyond : ReachesBeyond successors node other) : other ∈ state.left := by
  -- An open node beyond `node` would close a cycle.
  have hnotOpen : ∀ other, ReachesBeyond successors node other →
      ¬ state.Open other := fun other hforth hother =>
    hacyclic (OnCycle.of_reaches_back hforth (hopen other hother))
  have hleft : ∀ other, ReachesBeyond successors node other →
      other ∈ state.entered → other ∈ state.left := by
    intro other hforth hother
    by_contra hnot
    exact hnotOpen other hforth ⟨hother, hnot⟩
  induction hbeyond with
  | single hedge => exact hleft _ (.single hedge) (hentered hedge)
  | tail hpath hedge ih =>
      exact hleft _ (hpath.tail hedge) (hsound.successors_entered _ ih hedge)

theorem Sound.leave {state : Visit Node} {node : Node}
    (hsound : state.Sound successors known) (hnode : state.Open node)
    (hentered : successors node ⊆ state.entered)
    (hopen : ∀ other, state.Open other → Reaches successors other node) :
    Sound successors known { state with left := state.left ++ [node] } where
  entered_nodup := hsound.entered_nodup
  entered_known := hsound.entered_known
  left_nodup := by
    refine List.nodup_append.mpr ⟨hsound.left_nodup, by simp, ?_⟩
    rintro other hother _ (_ | _) rfl
    · exact hnode.2 hother
    · contradiction
  left_entered := by
    simpa using ⟨hsound.left_entered, hnode.1⟩
  successors_entered := by
    intro other hother
    rcases List.mem_append.mp hother with hold | hlast
    · exact hsound.successors_entered other hold
    · obtain rfl := List.mem_singleton.mp hlast
      exact hentered
  ordered := by
    intro other hother hacyclic target hbeyond
    rcases List.mem_append.mp hother with hold | hlast
    · exact (hsound.ordered other hold hacyclic target hbeyond).append_right _
    · obtain rfl := List.mem_singleton.mp hlast
      exact Precedes.of_mem_append
        (hsound.left_of_reachesBeyond hentered hopen hacyclic hbeyond) (by simp)

end Visit

open Visit

/-- What the visits of some nodes, one after another, come to. -/
structure Visits (successors : Node → List Node) (known : List Node)
    (before after : Visit Node) (nodes : List Node) : Prop where
  sound : after.Sound successors known
  extends_before : Extends before after
  entered : nodes ⊆ after.entered

/-- A bound suffices when fewer known nodes are still to be entered. -/
def Suffices (known : List Node) (state : Visit Node) (bound : Nat) : Prop :=
  known.length ≤ state.entered.length + bound

variable {successors : Node → List Node} {known : List Node}

theorem Suffices.of_extends {before after : Visit Node} {bound : Nat}
    (hsuffices : Suffices known before bound) (hnodup : before.entered.Nodup)
    (hextends : Extends before after) : Suffices known after bound := by
  have hgrown : before.entered.length ≤ after.entered.length :=
    (List.subperm_of_subset hnodup hextends.entered_subset).length_le
  unfold Suffices at *
  omega

/-- If every visit does what it should, so does a row of visits. -/
theorem Visits.foldl (visitOne : Visit Node → Node → Visit Node) {bound : Nat}
    (nodes : List Node)
    (hvisit : ∀ node ∈ nodes, ∀ state, state.Sound successors known →
      Suffices known state bound →
      (∀ other, state.Open other → Reaches successors other node) →
        Visits successors known state (visitOne state node) [node])
    {state : Visit Node} (hsound : state.Sound successors known)
    (hsuffices : Suffices known state bound)
    (hopen : ∀ other, state.Open other → ∀ node ∈ nodes,
      Reaches successors other node) :
    Visits successors known state (nodes.foldl visitOne state) nodes := by
  induction nodes generalizing state with
  | nil => exact ⟨hsound, Extends.refl state, List.nil_subset _⟩
  | cons node nodes ih =>
      have hfirst := hvisit node List.mem_cons_self state hsound hsuffices
        fun other hother => hopen other hother node List.mem_cons_self
      have hrest : Visits successors known (visitOne state node)
          (nodes.foldl visitOne (visitOne state node)) nodes := by
        refine ih (fun next hnext => hvisit next (List.mem_cons_of_mem _ hnext))
          hfirst.sound
          (hsuffices.of_extends hsound.entered_nodup hfirst.extends_before) ?_
        intro other hother next hnext
        exact hopen other ((hfirst.extends_before.open_iff other).mp hother) next
          (List.mem_cons_of_mem _ hnext)
      refine ⟨hrest.sound, hfirst.extends_before.trans hrest.extends_before, ?_⟩
      exact List.cons_subset.mpr
        ⟨hrest.extends_before.entered_subset (hfirst.entered (by simp)),
          hrest.entered⟩

variable [DecidableEq Node]

/-- A visit leaves its node after all that lies beyond it; the bound is only
reached when there is no node left to enter. -/
theorem visit_visits (hclosed : ∀ node ∈ known, successors node ⊆ known)
    {bound : Nat} {state : Visit Node} {node : Node} (hnode : node ∈ known)
    (hsound : state.Sound successors known)
    (hsuffices : Suffices known state bound)
    (hopen : ∀ other, state.Open other → Reaches successors other node) :
    Visits successors known state (visit successors bound state node) [node] := by
  induction bound generalizing state node with
  | zero =>
      have hall : known ⊆ state.entered :=
        ((List.subperm_of_subset hsound.entered_nodup
          hsound.entered_known).perm_of_length_le
          (by simpa [Suffices] using hsuffices)).symm.subset
      exact ⟨hsound, Extends.refl state, by simpa [visit] using hall hnode⟩
  | succ bound ih =>
      unfold visit
      split
      · next hentered => exact ⟨hsound, Extends.refl state, by simpa using hentered⟩
      · next hnew =>
        have hnotLeft : node ∉ state.left := fun hleft =>
          hnew (hsound.left_entered hleft)
        have hopenEntered : ∀ other,
            Open { state with entered := node :: state.entered } other →
              Reaches successors other node := by
          intro other hother
          rcases (open_enter_iff hnotLeft).mp hother with rfl | hbefore
          · exact .refl
          · exact hopen other hbefore
        have hinner := Visits.foldl (visit successors bound)
          (successors node)
          (fun next hnext inner hinner hroom hopenInner =>
            ih (hclosed node hnode hnext) hinner hroom hopenInner)
          (hsound.enter hnode hnew)
          (by simp only [Suffices, List.length_cons] at *; omega)
          (fun other hother next hnext => (hopenEntered other hother).tail hnext)
        have hopenInner := hinner.extends_before.open_iff
        refine ⟨hinner.sound.leave ?_ hinner.entered ?_, ⟨?_, ?_, ?_⟩, ?_⟩
        · exact (hopenInner node).mpr ((open_enter_iff hnotLeft).mpr (.inl rfl))
        · exact fun other hother => hopenEntered other ((hopenInner other).mp hother)
        · exact List.Subset.trans (List.subset_cons_self _ _)
            hinner.extends_before.entered_subset
        · exact hinner.extends_before.left_prefix.trans (List.prefix_append _ _)
        · intro other
          have hother := (hopenInner other).trans (open_enter_iff hnotLeft)
          simp only [Open, List.mem_append, List.mem_singleton] at hother ⊢
          grind
        · simpa using hinner.extends_before.entered_subset List.mem_cons_self

/-! ## The whole search -/

section Whole

variable {nodes : List Node} {bound : Nat}

theorem postorder_visits (hclosed : ∀ node ∈ nodes, successors node ⊆ nodes)
    (hbound : nodes.length ≤ bound) :
    Visits successors nodes {} (nodes.foldl (visit successors bound) {}) nodes :=
  Visits.foldl (visit successors bound) nodes
    (fun _ hnode _ hsound hsuffices hopen =>
      visit_visits hclosed hnode hsound hsuffices hopen)
    (Sound.empty successors nodes) (by simpa [Suffices] using hbound)
    (by simp [Open])

theorem nodup_postorder (hclosed : ∀ node ∈ nodes, successors node ⊆ nodes)
    (hbound : nodes.length ≤ bound) :
    (postorder successors bound nodes).Nodup :=
  (postorder_visits hclosed hbound).sound.left_nodup

theorem mem_postorder_iff (hclosed : ∀ node ∈ nodes, successors node ⊆ nodes)
    (hbound : nodes.length ≤ bound) {node : Node} :
    node ∈ postorder successors bound nodes ↔ node ∈ nodes := by
  have hvisits := postorder_visits hclosed hbound
  constructor
  · exact fun hleft => hvisits.sound.entered_known (hvisits.sound.left_entered hleft)
  · intro hnode
    by_contra hnot
    have hopen := (hvisits.extends_before.open_iff node).mp
      ⟨hvisits.entered hnode, hnot⟩
    simp [Open] at hopen

/-- What a node leads to comes before it, unless it leads back to itself. -/
theorem precedes_postorder (hclosed : ∀ node ∈ nodes, successors node ⊆ nodes)
    (hbound : nodes.length ≤ bound) {node other : Node} (hnode : node ∈ nodes)
    (hacyclic : ¬ OnCycle successors node)
    (hbeyond : ReachesBeyond successors node other) :
    Precedes (postorder successors bound nodes) other node :=
  (postorder_visits hclosed hbound).sound.ordered node
    ((mem_postorder_iff hclosed hbound).mpr hnode) hacyclic other hbeyond

end Whole

end Parcels.Graph
