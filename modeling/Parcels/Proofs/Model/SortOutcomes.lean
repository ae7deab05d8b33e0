import Parcels.Proofs.Graph.StackWalk
import Parcels.Proofs.Model.ClassSorting

/-!
# How a sort ends

A sort fails when a parent is missing or final.  Otherwise it walks the forest
of the parcel, which it does not leave and where it meets no class twice, and
what it has not met at the end hangs on a cycle of parents.  So counting the
classes met is enough to find cycles, and it finds nothing else.
-/

namespace Parcels.Model

open Parcels.Graph

variable {model : Model} {id : ParcelId}

/-! ## Classes that the walk meets -/

/-- Going from child to parent within the parcel, one gets from the class to one
that has no parent in the parcel. -/
def Rooted (model : Model) (id : ParcelId) (member : ClassId) : Prop :=
  ∃ root, Relation.ReflTransGen (fun child parent => model.ParentWithin id parent child)
    member root ∧ model.startsSubtree id root = true

def AllRooted (model : Model) (id : ParcelId) : Prop :=
  ∀ member ∈ model.classesOf id, model.Rooted id member

/-- The first by name of the classes that are not rooted. -/
structure FirstUnrooted (model : Model) (id : ParcelId) (first : ClassId) : Prop where
  member : first ∈ model.classesOf id
  unrooted : ¬ model.Rooted id first
  least : ∀ other ∈ model.classesOf id, ¬ model.Rooted id other →
    model.className first ≤ model.className other

/-- The walk of a sort meets a class once at most and ends, and it has then met
the classes in the order that the sort leaves. -/
structure WalksOnce (model : Model) (id : ParcelId) : Prop where
  ends : Acc (fun after before => StackWalk.Step (model.childrenWithin id) before after)
    (StackWalk.start (model.subtreeRoots id))
  once : ∀ walk, StackWalk.Steps (model.childrenWithin id)
    (StackWalk.start (model.subtreeRoots id)) walk → walk.met.Nodup
  whole : ∀ walk, StackWalk.Steps (model.childrenWithin id)
    (StackWalk.start (model.subtreeRoots id)) walk → walk.stack = [] →
      walk.met = model.inheritanceOrder id

/-- The walk from the roots ends and meets no class twice. -/
theorem Sound.walksOnce (hsound : model.Sound) (id : ParcelId) : model.WalksOnce id := by
  have hmeets : StackWalk.Meets (model.childrenWithin id) (model.subtreeRoots id)
      (model.inheritanceOrder id) :=
    StackWalk.meets_preorders fun root hroot =>
      withinDepth_of_root hsound.partitioned hsound.linked hroot
  refine ⟨hmeets.ends, fun walk hsteps => ?_, hmeets.whole⟩
  exact (nodup_inheritanceOrder hsound.partitioned hsound.linked).sublist
    (hmeets.along walk hsteps).sublist

/-- Where parents lead within the parcel is a class of the parcel. -/
theorem Sound.mem_classesOf_of_climbs (hsound : model.Sound) {member root : ClassId}
    (hmember : member ∈ model.classesOf id)
    (hclimbs : Relation.ReflTransGen (model.ParentWithin id) root member) :
    root ∈ model.classesOf id := by
  rcases hclimbs.cases_head with rfl | ⟨child, hlink, _⟩
  · exact hmember
  · have hknown := (hsound.linked.known _ (mem_links_of_parent? hlink.linked)).2
    exact hsound.partitioned.mem_classesOf_iff.mpr ⟨hknown, hlink.parent_owned⟩

/-- A class is met just when its parents lead to a root. -/
theorem Sound.mem_inheritanceOrder_iff (hsound : model.Sound) {member : ClassId}
    (hmember : member ∈ model.classesOf id) :
    member ∈ model.inheritanceOrder id ↔ model.Rooted id member := by
  have hbelow : ∀ root ∈ model.subtreeRoots id,
      (member ∈ preorder (model.childrenWithin id) model.classes.size root ↔
        Relation.ReflTransGen (model.ParentWithin id) root member) := by
    intro root hroot
    have howner := hsound.partitioned.owner_of_mem (mem_subtreeRoots.mp hroot).1
    rw [← hsound.linked.reaches_iff howner]
    exact ⟨reaches_of_mem_preorder, mem_preorder_of_reaches
      (withinDepth_of_root hsound.partitioned hsound.linked hroot)⟩
  constructor
  · intro hmet
    obtain ⟨root, hroot, hpreorder⟩ := List.mem_flatMap.mp hmet
    have hclimbs := (hbelow root hroot).mp hpreorder
    exact ⟨root, Relation.reflTransGen_swap.mpr hclimbs, (mem_subtreeRoots.mp hroot).2⟩
  · rintro ⟨root, hclimbs, hstarts⟩
    have hclimbs := Relation.reflTransGen_swap.mp hclimbs
    have hroot : root ∈ model.subtreeRoots id :=
      mem_subtreeRoots.mpr ⟨hsound.mem_classesOf_of_climbs hmember hclimbs, hstarts⟩
    exact List.mem_flatMap.mpr ⟨root, hroot, (hbelow root hroot).mpr hclimbs⟩

/-- The walk meets all classes of the parcel just when every class has a root. -/
theorem Sound.length_inheritanceOrder_eq_iff (hsound : model.Sound) :
    (model.inheritanceOrder id).length = (model.classesOf id).length ↔
      model.AllRooted id := by
  constructor
  · intro hlength member hmember
    have hperm := inheritanceOrder_perm hsound.partitioned hsound.linked hlength
    exact (hsound.mem_inheritanceOrder_iff hmember).mp (hperm.symm.subset hmember)
  · intro hrooted
    have hall : model.classesOf id ⊆ model.inheritanceOrder id := fun member hmember =>
      (hsound.mem_inheritanceOrder_iff hmember).mpr (hrooted member hmember)
    have hmet : model.inheritanceOrder id ⊆ model.classesOf id :=
      inheritanceOrder_subset hsound.partitioned hsound.linked
    have hfew := List.subperm_of_subset
      (nodup_inheritanceOrder hsound.partitioned hsound.linked) hmet
    have hmany := List.subperm_of_subset (hsound.partitioned.nodup id) hall
    exact Nat.le_antisymm hfew.length_le hmany.length_le

/-- Of the classes that the walk has not met, the error names the first. -/
theorem Sound.sortError_eq (hsound : model.Sound)
    (hunrooted : ¬ model.AllRooted id) :
    ∃ first, model.FirstUnrooted id first ∧
      model.sortError id (model.classesOf id) = .inheritanceCycle (model.className first) := by
  have hperm := model.sortByName_perm ((model.classesOf id).filter fun member =>
    member ∉ model.inheritanceOrder id)
  have hunlisted : ((model.classesOf id).filter fun member =>
      member ∉ model.inheritanceOrder id) ⊆ model.classesOf id := List.filter_subset_self _
  have hsorted := hsound.partitioned.pairwise_sortByName
    ((hsound.partitioned.nodup id).filter fun member => member ∉ model.inheritanceOrder id)
    hunlisted
  have hunmet : ∀ member, member ∈ model.sortByName ((model.classesOf id).filter fun member =>
      member ∉ model.inheritanceOrder id) ↔
        member ∈ model.classesOf id ∧ ¬ model.Rooted id member := by
    intro member
    rw [hperm.mem_iff, List.mem_filter, decide_eq_true_iff]
    exact and_congr_right fun hmember => (hsound.mem_inheritanceOrder_iff hmember).not
  unfold sortError
  cases hunsorted : model.sortByName ((model.classesOf id).filter fun member =>
      member ∉ model.inheritanceOrder id) with
  | nil =>
      rw [hunsorted] at hunmet
      refine absurd (fun member hmember => ?_) hunrooted
      by_contra hstray
      exact List.not_mem_nil ((hunmet member).mpr ⟨hmember, hstray⟩)
  | cons first rest =>
      rw [hunsorted] at hunmet hsorted
      obtain ⟨hfirst, hstray⟩ := (hunmet first).mp List.mem_cons_self
      refine ⟨first, ⟨hfirst, hstray, fun other hother hotherStray => ?_⟩, rfl⟩
      rcases List.mem_cons.mp ((hunmet other).mpr ⟨hother, hotherStray⟩) with rfl | hrest
      · exact String.le_refl _
      · exact Std.le_of_lt (List.rel_of_pairwise_cons hsorted hrest)

/-! ## The whole call -/

/-- Every class of the parcel has its link or can be given it. -/
def AllLinkable (model : Model) (id : ParcelId) : Prop :=
  ∀ child ∈ model.classesOf id, model.Linkable id child

/-- A link that cannot be made is not taken for a cycle. -/
theorem linkParent_kind (id : ParcelId) (child : ClassId) (model : Model) :
    Ends (linkParent id child model) (fun _ _ => True)
      (fun error _ => error.kind = .unresolvedReference ∨ error.kind = .invalidInheritance) := by
  unfold linkParent
  rw [bind_get]
  split
  · trivial
  · cases (model.classAt child).parentName with
    | none => trivial
    | some parentName =>
        cases hfound : model.findInScope? id parentName with
        | none =>
            simp only [hfound]
            exact .inl rfl
        | some parent =>
            simp only [hfound]
            split
            · exact .inr rfl
            · trivial

theorem forM_linkParent_kind (model : Model) (id : ParcelId) (members : List ClassId) :
    Ends (members.forM (linkParent id) model) (fun _ _ => True)
      (fun error _ => error.kind = .unresolvedReference ∨ error.kind = .invalidInheritance) :=
  Ends.forM (fun _ _ => True) (fun _ child _ between _ _ => linkParent_kind id child between)
    trivial

/-- The links decide whether the walk is begun, and the roots how it ends. -/
theorem Sound.connectAndSort_decides (hsound : model.Sound) :
    Ends (connectAndSort id model)
      (fun _ _ => model.AllLinkable id ∧ (model.connected id).AllRooted id)
      (fun error _ =>
        ¬ model.AllLinkable id ∧
          (error.kind = .unresolvedReference ∨ error.kind = .invalidInheritance) ∨
        model.AllLinkable id ∧ ∃ first, (model.connected id).FirstUnrooted id first ∧
          error = .inheritanceCycle (model.className first)) := by
  have hloop := (forM_linkParent_ends (hsound.partitioned.nodup id)).and
    (forM_linkParent_kind model id (model.classesOf id))
  apply (connectAndSort_of_loop hloop).mono
  · rintro _ _ ⟨_, ⟨⟨hlinkable, _, rfl⟩, _⟩, hlength, _⟩
    exact ⟨hlinkable, (hsound.connected hlinkable).length_inheritanceOrder_eq_iff.mp hlength⟩
  · intro error after hstopped
    rcases hstopped with hlinks | ⟨⟨⟨hlinkable, _, rfl⟩, _⟩, hlength, rfl⟩
    · exact .inl hlinks
    · have hconnected := hsound.connected hlinkable
      exact .inr ⟨hlinkable, hconnected.sortError_eq fun hall =>
        hlength (hconnected.length_inheritanceOrder_eq_iff.mpr hall)⟩

theorem connectAndSort_error_frame {error : Error} {after : Model}
    (hrun : connectAndSort id model = .error error after) (other : ParcelId) :
    after.classesOf other = model.classesOf other := by
  have hends := connectAndSort_ends model id
  rw [hrun] at hends
  exact MakesLinks.classesOf_eq hends other

/-- How a sort ends: what the links and the parents of the classes say about it,
and what is left when it fails. -/
structure SortEnds (model : Model) (id : ParcelId) : Prop where
  walk : model.AllLinkable id → (model.connected id).WalksOnce id
  ok_iff : (∃ after, connectAndSort id model = .ok () after) ↔
    model.AllLinkable id ∧ (model.connected id).AllRooted id
  cycle_iff : (∃ name after, connectAndSort id model = .error (.inheritanceCycle name) after) ↔
    model.AllLinkable id ∧ ¬ (model.connected id).AllRooted id
  cycle_first : ∀ name after, connectAndSort id model = .error (.inheritanceCycle name) after →
    ∃ first, (model.connected id).FirstUnrooted id first ∧ name = model.className first
  not_internal : ∀ error after, connectAndSort id model = .error error after →
    error.kind ≠ .internal
  frame : ∀ error after, connectAndSort id model = .error error after →
    ∀ other, after.classesOf other = model.classesOf other

/-- Whatever calls came before, failing sorts and links that form cycles
included, a sort ends as the links and the roots of the parcel say. -/
theorem connectAndSort_ends_by_roots (hreachable : model.Reachable) : model.SortEnds id := by
  have hsound := hreachable.sound
  have hdecides : Ends (connectAndSort id model) _ _ := hsound.connectAndSort_decides
  have hstray : ∀ first, (model.connected id).FirstUnrooted id first →
      ¬ (model.connected id).AllRooted id := fun first hfirst hall =>
    hfirst.unrooted (hall first hfirst.member)
  have hcycle : ∀ name after, connectAndSort id model = .error (.inheritanceCycle name) after →
      model.AllLinkable id ∧ ∃ first, (model.connected id).FirstUnrooted id first ∧
        name = model.className first := by
    intro name after hrun
    rw [hrun] at hdecides
    rcases hdecides with ⟨_, hkind⟩ | ⟨hlinkable, first, hfirst, herror⟩
    · simp [Error.kind] at hkind
    · exact ⟨hlinkable, first, hfirst, Error.inheritanceCycle.inj herror⟩
  constructor
  case walk =>
    intro hlinkable
    exact (hsound.connected hlinkable).walksOnce id
  case ok_iff =>
    refine Ends.exists_ok_iff (hdecides.mono (fun _ _ hboth => hboth) ?_) fun _ hboth => hboth
    rintro error _ (⟨hnot, _⟩ | ⟨_, first, hfirst, _⟩) ⟨hlinkable, hrooted⟩
    · exact hnot hlinkable
    · exact hstray first hfirst hrooted
  case cycle_iff =>
    constructor
    · rintro ⟨name, after, hrun⟩
      obtain ⟨hlinkable, first, hfirst, _⟩ := hcycle name after hrun
      exact ⟨hlinkable, hstray first hfirst⟩
    · rintro ⟨hlinkable, hunrooted⟩
      cases hrun : connectAndSort id model with
      | ok _ after =>
          exact absurd (hdecides.of_eq_ok hrun).2 hunrooted
      | error error after =>
          rw [hrun] at hdecides
          rcases hdecides with ⟨hnot, _⟩ | ⟨_, first, _, rfl⟩
          · exact absurd hlinkable hnot
          · exact ⟨_, after, rfl⟩
  case cycle_first =>
    intro name after hrun
    exact (hcycle name after hrun).2
  case not_internal =>
    intro error after hrun hinternal
    rw [hrun] at hdecides
    rcases hdecides with ⟨_, hkind⟩ | ⟨_, first, _, rfl⟩
    · simp [hinternal] at hkind
    · cases hinternal
  case frame =>
    intro error after hrun
    exact connectAndSort_error_frame hrun

/-! ## A cycle and what hangs on it -/

/-- `Cow` and `Calf` inherit from each other, and `Bull` from `Cow`. -/
def loopedFarm : Model :=
  leftBy ((Call.addClass ⟨0⟩ { name := "Hen" }).run
    (leftBy ((Call.addClass ⟨0⟩ { name := "Bull", parent := some "Cow" }).run
      (leftBy ((Call.addClass ⟨0⟩ { name := "Cow", parent := some "Calf" }).run
        (leftBy ((Call.addClass ⟨0⟩ { name := "Calf", parent := some "Cow" }).run
          (leftBy ((Call.register farm).run {})))))))))

theorem loopedFarm_reachable : loopedFarm.Reachable := by
  refine .call (.call (.call (.call (.call .empty farm_wellFormed) ?_) ?_) ?_) ?_
  all_goals exact mem_parcelIds.mpr (by decide)

theorem loopedFarm_ends_by_roots :
    loopedFarm.Reachable ∧ loopedFarm.SortEnds ⟨0⟩ ∧
      Ends (connectAndSort ⟨0⟩ loopedFarm) (fun _ _ => False)
        (fun error after => error = .inheritanceCycle "Bull" ∧
          after.classesOf ⟨0⟩ = [⟨0⟩, ⟨1⟩, ⟨2⟩, ⟨3⟩] ∧
          after.links = [⟨⟨0⟩, ⟨1⟩⟩, ⟨⟨1⟩, ⟨0⟩⟩, ⟨⟨2⟩, ⟨1⟩⟩]) :=
  ⟨loopedFarm_reachable, connectAndSort_ends_by_roots loopedFarm_reachable, by decide⟩

end Parcels.Model
