import Mathlib.Data.List.Perm.Subperm
import Parcels.Proofs.Graph.Reachability
import Parcels.Proofs.Order

/-!
# Preorder of a forest

A graph in which every node is the successor of one node at most, and of that
one once, is a forest where it has no cycle.  There a preorder lists what its
node leads to, each node once, and the nodes below a node right behind it.
-/

namespace Parcels.Graph

variable {Node : Type}

/-- A path from the node meets no more nodes than the bound says. -/
def WithinDepth (successors : Node → List Node) : (bound : Nat) → Node → Prop
  | 0, _ => False
  | bound + 1, node => ∀ next ∈ successors node, WithinDepth successors bound next

/-- No node is a successor twice. -/
structure Forest (successors : Node → List Node) : Prop where
  unique : ∀ {left right node}, Edge successors left node →
    Edge successors right node → left = right
  nodup : ∀ node, (successors node).Nodup

/-- None of the nodes leads to another or back to itself. -/
def Apart (successors : Node → List Node) (nodes : List Node) : Prop :=
  ∀ left ∈ nodes, ∀ right ∈ nodes, ¬ ReachesBeyond successors left right

variable {successors : Node → List Node} {bound : Nat}

/-! ## The bound -/

theorem WithinDepth.succ {node : Node} (hdepth : WithinDepth successors bound node) :
    WithinDepth successors (bound + 1) node := by
  induction bound generalizing node with
  | zero => exact hdepth.elim
  | succ bound ih => exact fun next hnext => ih (hdepth next hnext)

theorem WithinDepth.of_reaches {node below : Node}
    (hdepth : WithinDepth successors bound node)
    (hpath : Reaches successors node below) :
    WithinDepth successors bound below := by
  induction hpath with
  | refl => exact hdepth
  | tail _ hedge ih =>
      cases bound with
      | zero => exact ih.elim
      | succ bound => exact (ih _ hedge).succ

/-- The bound suffices when a path of distinct known nodes, those of `above`,
leads to the node and has room for fewer more than the bound says. -/
theorem WithinDepth.of_path {known above : List Node} {node : Node}
    (hclosed : ∀ node ∈ known, successors node ⊆ known)
    (hacyclic : ∀ below, Reaches successors node below →
      ¬ OnCycle successors below)
    (hknown : node ∈ known) (habove : above ⊆ known) (hnodup : above.Nodup)
    (hpath : ∀ other ∈ above, ReachesBeyond successors other node)
    (hroom : known.length ≤ above.length + bound) :
    WithinDepth successors bound node := by
  have hnew : node ∉ above := fun hmem => hacyclic node .refl (hpath node hmem)
  have hnodup' : (node :: above).Nodup := List.nodup_cons.mpr ⟨hnew, hnodup⟩
  have habove' : node :: above ⊆ known := List.cons_subset.mpr ⟨hknown, habove⟩
  induction bound generalizing node above with
  | zero =>
      have hlength := (List.subperm_of_subset hnodup' habove').length_le
      simp only [List.length_cons] at hlength
      omega
  | succ bound ih =>
      intro next hnext
      have hacyclic' : ∀ below, Reaches successors next below →
          ¬ OnCycle successors below := fun below hbelow =>
        hacyclic below (.head hnext hbelow)
      have hpath' : ∀ other ∈ node :: above,
          ReachesBeyond successors other next := by
        intro other hother
        rcases List.mem_cons.mp hother with rfl | hfurther
        · exact .single hnext
        · exact (hpath other hfurther).tail hnext
      have hknown' : next ∈ known := hclosed node hknown hnext
      have hnew' : next ∉ node :: above := fun hmem =>
        hacyclic' next .refl (hpath' next hmem)
      exact ih hacyclic' hknown' habove' hnodup' hpath'
        (by simp only [List.length_cons]; omega) hnew'
        (List.nodup_cons.mpr ⟨hnew', hnodup'⟩)
        (List.cons_subset.mpr ⟨hknown', habove'⟩)

/-- Where no cycle can be reached, a path meets each known node once. -/
theorem WithinDepth.of_acyclic (known : List Node) {node : Node}
    (hclosed : ∀ node ∈ known, successors node ⊆ known)
    (hacyclic : ∀ below, Reaches successors node below →
      ¬ OnCycle successors below)
    (hknown : node ∈ known) (hbound : known.length ≤ bound) :
    WithinDepth successors bound node :=
  of_path hclosed hacyclic hknown (List.nil_subset _) List.nodup_nil (by simp)
    (by simpa using hbound)

theorem preorder_succ {node : Node} (hdepth : WithinDepth successors bound node) :
    preorder successors (bound + 1) node = preorder successors bound node := by
  induction bound generalizing node with
  | zero => exact hdepth.elim
  | succ bound ih =>
      rw [preorder, preorder]
      congr 1
      exact List.flatMap_congr fun next hnext => ih (hdepth next hnext)

/-! ## Members -/

theorem reaches_of_mem_preorder {node below : Node}
    (hbelow : below ∈ preorder successors bound node) :
    Reaches successors node below := by
  induction bound generalizing node with
  | zero => simp [preorder] at hbelow
  | succ bound ih =>
      simp only [preorder, List.mem_cons, List.mem_flatMap] at hbelow
      rcases hbelow with rfl | ⟨next, hnext, hbelow⟩
      · exact .refl
      · exact .head hnext (ih hbelow)

theorem mem_preorder_of_reaches {node below : Node}
    (hdepth : WithinDepth successors bound node)
    (hpath : Reaches successors node below) :
    below ∈ preorder successors bound node := by
  induction bound generalizing node with
  | zero => exact hdepth.elim
  | succ bound ih =>
      rw [preorder]
      rcases hpath.cases_head with rfl | ⟨next, hnext, hrest⟩
      · exact List.mem_cons_self
      · exact List.mem_cons_of_mem _
          (List.mem_flatMap.mpr ⟨next, hnext, ih (hdepth next hnext) hrest⟩)

/-- A preorder consists of its node and what lies beyond that. -/
theorem preorder_eq_cons {node : Node} (hdepth : WithinDepth successors bound node) :
    ∃ below, preorder successors bound node = node :: below ∧
      ∀ other, ReachesBeyond successors node other → other ∈ below := by
  cases bound with
  | zero => exact hdepth.elim
  | succ bound =>
      refine ⟨_, rfl, fun other hbeyond => ?_⟩
      obtain ⟨next, hnext, hrest⟩ := Relation.TransGen.head'_iff.mp hbeyond
      exact List.mem_flatMap.mpr
        ⟨next, hnext, mem_preorder_of_reaches (hdepth next hnext) hrest⟩

/-! ## Each node once -/

theorem Apart.not_onCycle (hforest : Forest successors) {nodes : List Node}
    (hapart : Apart successors nodes) {node below : Node} (hnode : node ∈ nodes)
    (hpath : Reaches successors node below) : ¬ OnCycle successors below :=
  fun hcycle => hapart node hnode node hnode (hcycle.of_reaches hforest.unique hpath)

theorem Forest.apart_successors (hforest : Forest successors) {node : Node}
    (hacyclic : ¬ OnCycle successors node) :
    Apart successors (successors node) := by
  intro left hleft right hright hbeyond
  obtain ⟨before, hpath, hlast⟩ := Relation.TransGen.tail'_iff.mp hbeyond
  obtain rfl := hforest.unique hright hlast
  exact hacyclic (Relation.TransGen.head' hleft hpath)

/-- Preorders of nodes that are apart have nothing in common. -/
theorem Forest.nodup_flatMap (hforest : Forest successors) {nodes : List Node}
    (hnodup : nodes.Nodup) (hapart : Apart successors nodes)
    (heach : ∀ node ∈ nodes, (preorder successors bound node).Nodup) :
    (nodes.flatMap (preorder successors bound)).Nodup := by
  refine List.nodup_flatMap.mpr ⟨heach, hnodup.imp_of_mem ?_⟩
  intro left right hleft hright hne below hbelowLeft hbelowRight
  rcases Reaches.comparable hforest.unique (reaches_of_mem_preorder hbelowLeft)
    (reaches_of_mem_preorder hbelowRight) with hpath | hpath
  · rcases Relation.reflTransGen_iff_eq_or_transGen.mp hpath with heq | hbeyond
    · exact hne heq.symm
    · exact hapart left hleft right hright hbeyond
  · rcases Relation.reflTransGen_iff_eq_or_transGen.mp hpath with heq | hbeyond
    · exact hne heq
    · exact hapart right hright left hleft hbeyond

theorem Forest.nodup_preorder (hforest : Forest successors) {node : Node}
    (hacyclic : ∀ below, Reaches successors node below →
      ¬ OnCycle successors below) :
    (preorder successors bound node).Nodup := by
  induction bound generalizing node with
  | zero => exact List.nodup_nil
  | succ bound ih =>
      rw [preorder]
      refine List.nodup_cons.mpr ⟨?_, ?_⟩
      · intro hmem
        obtain ⟨next, hnext, hbelow⟩ := List.mem_flatMap.mp hmem
        exact hacyclic node .refl
          (Relation.TransGen.head' hnext (reaches_of_mem_preorder hbelow))
      · refine hforest.nodup_flatMap (hforest.nodup node)
          (hforest.apart_successors (hacyclic node .refl)) fun next hnext => ih ?_
        exact fun below hbelow => hacyclic below (.head hnext hbelow)

/-- The preorders of nodes that are apart, one behind the other. -/
theorem Forest.nodup_preorders (hforest : Forest successors) {nodes : List Node}
    (hnodup : nodes.Nodup) (hapart : Apart successors nodes) :
    (nodes.flatMap (preorder successors bound)).Nodup :=
  hforest.nodup_flatMap hnodup hapart fun _ hnode =>
    hforest.nodup_preorder fun _ hpath => hapart.not_onCycle hforest hnode hpath

/-! ## Order -/

/-- The preorder of a node below stands in one piece in a preorder. -/
theorem infix_preorder_of_reaches {node below : Node}
    (hdepth : WithinDepth successors bound node)
    (hpath : Reaches successors node below) :
    preorder successors bound below <:+: preorder successors bound node := by
  induction bound generalizing node with
  | zero => exact hdepth.elim
  | succ bound ih =>
      rcases hpath.cases_head with rfl | ⟨next, hnext, hrest⟩
      · exact List.infix_refl _
      · have hinner := ih (hdepth next hnext) hrest
        rw [← preorder_succ ((hdepth next hnext).of_reaches hrest)] at hinner
        obtain ⟨before, after, hsplit⟩ := List.append_of_mem hnext
        apply hinner.trans
        rw [preorder, hsplit, List.flatMap_append, List.flatMap_cons]
        exact ⟨node :: before.flatMap (preorder successors bound),
          after.flatMap (preorder successors bound), by simp⟩

theorem infix_preorders_of_mem {nodes : List Node} {node : Node}
    (hnode : node ∈ nodes) :
    preorder successors bound node <:+: nodes.flatMap (preorder successors bound) := by
  obtain ⟨before, after, rfl⟩ := List.append_of_mem hnode
  rw [List.flatMap_append, List.flatMap_cons]
  exact ⟨before.flatMap (preorder successors bound),
    after.flatMap (preorder successors bound), by simp⟩

/-- The first nodes of preorders one behind the other keep their order. -/
theorem sublist_preorders {nodes : List Node}
    (hdepth : ∀ node ∈ nodes, WithinDepth successors bound node) :
    nodes.Sublist (nodes.flatMap (preorder successors bound)) := by
  have hheads : ∀ node ∈ nodes, [node].Sublist (preorder successors bound node) := by
    intro node hnode
    exact List.singleton_sublist.mpr (mem_preorder_of_reaches (hdepth node hnode) .refl)
  simpa using List.Sublist.flatMap_right nodes hheads

theorem successors_sublist_preorder {node : Node}
    (hdepth : WithinDepth successors bound node) :
    (successors node).Sublist (preorder successors bound node) := by
  cases bound with
  | zero => exact hdepth.elim
  | succ bound => exact (sublist_preorders hdepth).cons node

/-! ## Renamed nodes -/

/-- The preorder of renamed nodes is the renamed preorder. -/
theorem preorder_map {Renamed : Type} {rename : Node → Renamed}
    {successors' : Renamed → List Renamed}
    (hsuccessors : ∀ node, successors' (rename node) = (successors node).map rename)
    (bound : Nat) (node : Node) :
    preorder successors' bound (rename node) =
      (preorder successors bound node).map rename := by
  induction bound generalizing node with
  | zero => rfl
  | succ bound ih =>
      rw [preorder, preorder, hsuccessors, List.map_cons, List.map_flatMap,
        List.flatMap_map]
      simp only [ih]

end Parcels.Graph
