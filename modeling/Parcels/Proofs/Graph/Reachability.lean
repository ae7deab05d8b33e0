import Mathlib.Logic.Relation
import Parcels.Graph

/-!
# Reachability in a graph of successors

The edges, the paths and the cycles that a successor function describes, apart
from any walk.
-/

namespace Parcels.Graph

open Relation

variable {Node : Type}

/-- `target` is among the successors of `source`. -/
def Edge (successors : Node → List Node) (source target : Node) : Prop :=
  target ∈ successors source

/-- There is a path, perhaps without any edge. -/
abbrev Reaches (successors : Node → List Node) : Node → Node → Prop :=
  ReflTransGen (Edge successors)

/-- There is a path of one edge or more. -/
abbrev ReachesBeyond (successors : Node → List Node) : Node → Node → Prop :=
  TransGen (Edge successors)

/-- A path of one edge or more leads back to the node. -/
def OnCycle (successors : Node → List Node) (node : Node) : Prop :=
  ReachesBeyond successors node node

variable {successors : Node → List Node}

theorem Reaches.mono {more : Node → List Node}
    (hmore : ∀ node, successors node ⊆ more node) {source target : Node}
    (hpath : Reaches successors source target) : Reaches more source target :=
  ReflTransGen.mono (fun node _ hedge => hmore node hedge) _ _ hpath

/-- A path cannot leave a set of nodes that no edge leaves. -/
theorem ReachesBeyond.within (inside : Node → Prop) {fewer : Node → List Node}
    (hclosed : ∀ node, inside node → ∀ next ∈ successors node,
      inside next ∧ next ∈ fewer node)
    {source target : Node} (hsource : inside source)
    (hpath : ReachesBeyond successors source target) :
    inside target ∧ ReachesBeyond fewer source target := by
  induction hpath with
  | single hedge =>
      obtain ⟨hnext, hfewer⟩ := hclosed source hsource _ hedge
      exact ⟨hnext, TransGen.single hfewer⟩
  | tail _ hedge ih =>
      obtain ⟨hnext, hfewer⟩ := hclosed _ ih.1 _ hedge
      exact ⟨hnext, ih.2.tail hfewer⟩

theorem Reaches.within (inside : Node → Prop)
    (hclosed : ∀ node, inside node → ∀ next ∈ successors node, inside next)
    {source target : Node} (hsource : inside source)
    (hpath : Reaches successors source target) : inside target := by
  induction hpath with
  | refl => exact hsource
  | tail _ hedge ih => exact hclosed _ ih _ hedge

theorem OnCycle.of_reaches_back {source target : Node}
    (hforth : ReachesBeyond successors source target)
    (hback : Reaches successors target source) : OnCycle successors source :=
  hforth.trans_left hback

/-- A graph in which every edge leads down has no cycle. -/
theorem not_onCycle_of_descends (height : Node → Nat)
    (hdescends : ∀ source target, Edge successors source target →
      height target < height source) (node : Node) : ¬ OnCycle successors node := by
  have hbelow : ∀ target, ReachesBeyond successors node target →
      height target < height node := by
    intro target hpath
    induction hpath with
    | single hedge => exact hdescends _ _ hedge
    | tail _ hedge ih => exact Nat.lt_trans (hdescends _ _ hedge) ih
  exact fun hcycle => Nat.lt_irrefl _ (hbelow node hcycle)

/-- In a graph where a node is the successor of one node at most, what leads
to a cycle lies on it. -/
theorem OnCycle.of_reaches {source target : Node}
    (hunique : ∀ {left right node}, Edge successors left node →
      Edge successors right node → left = right)
    (hpath : Reaches successors source target)
    (hcycle : OnCycle successors target) : OnCycle successors source := by
  induction hpath using ReflTransGen.head_induction_on with
  | refl => exact hcycle
  | head hedge _ ih =>
      obtain ⟨before, hround, hlast⟩ := TransGen.tail'_iff.mp ih
      obtain rfl := hunique hedge hlast
      exact TransGen.head' hedge hround

/-- In such a graph, of two nodes that lead to a third, one leads to the
other. -/
theorem Reaches.comparable {left right target : Node}
    (hunique : ∀ {left right node}, Edge successors left node →
      Edge successors right node → left = right)
    (hleft : Reaches successors left target)
    (hright : Reaches successors right target) :
    Reaches successors left right ∨ Reaches successors right left := by
  induction hleft with
  | refl => exact .inr hright
  | tail hpath hedge ih =>
      rcases ReflTransGen.cases_tail hright with rfl | ⟨before, hround, hlast⟩
      · exact .inl (hpath.tail hedge)
      · obtain rfl := hunique hedge hlast
        exact ih hround

end Parcels.Graph
