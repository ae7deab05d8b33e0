import Mathlib.Data.Set.Finite.List
import Parcels.Proofs.Model.SortOutcomes

/-!
# Inheritance cycles

What the walk of a sort does not meet is what goes round: parents lead from it
into a cycle within the parcel.  Some of these classes lie on a cycle and others
only hang on one.  The error names the first of all of them, so it names a class
on a cycle just when one of these comes before all that hang on them.
-/

namespace Parcels

/-- Going on from node to node among finitely many, one goes round in the end. -/
theorem Graph.exists_loop_of_forall_next {Node : Type} {step : Node → Node → Prop}
    {nodes : Set Node} (hfinite : nodes.Finite)
    (hnext : ∀ node ∈ nodes, ∃ next ∈ nodes, step node next) {start : Node}
    (hstart : start ∈ nodes) :
    ∃ looped, Relation.ReflTransGen step start looped ∧
      Relation.TransGen step looped looped := by
  by_contra! hnone
  -- Without a loop, what is met later lies below what is met before.
  let Met := {node // node ∈ nodes ∧ Relation.ReflTransGen step start node}
  let Beyond : Met → Met → Prop := fun later earlier =>
    Relation.TransGen step earlier.1 later.1
  have hmet : Finite Met := (hfinite.subset fun _ hnode => hnode.1).to_subtype
  have htrans : IsTrans Met Beyond := ⟨fun _ _ _ hlater hearlier => hearlier.trans hlater⟩
  have hirrefl : Std.Irrefl Beyond := ⟨fun node => hnone node.1 node.2.2⟩
  obtain ⟨last, -, hlast⟩ := (Finite.wellFounded_of_trans_of_irrefl Beyond).has_min
    Set.univ ⟨⟨start, hstart, .refl⟩, trivial⟩
  obtain ⟨next, hmember, hstep⟩ := hnext last.1 last.2.1
  exact hlast ⟨next, hmember, last.2.2.tail hstep⟩ trivial (.single hstep)

namespace Model

variable {model : Model} {id : ParcelId}

/-! ## Classes that go round -/

/-- Going from child to parent leads from the class back to it. -/
def OnParentCycle (model : Model) (member : ClassId) : Prop :=
  Relation.TransGen (fun child parent => model.parent? child = some parent) member member

/-- The step from a class of the parcel to its parent, if that is one too. -/
def Climbs (model : Model) (id : ParcelId) (child parent : ClassId) : Prop :=
  model.ParentWithin id parent child

/-- The class lies on a cycle of parents that does not leave the parcel. -/
def LoopsWithin (model : Model) (id : ParcelId) (member : ClassId) : Prop :=
  Relation.TransGen (model.Climbs id) member member

/-- Parents lead from the class into a cycle without leaving the parcel. -/
def GoesRound (model : Model) (id : ParcelId) (member : ClassId) : Prop :=
  ∃ looped, Relation.ReflTransGen (model.Climbs id) member looped ∧
    model.LoopsWithin id looped

theorem Climbs.not_startsSubtree {child parent : ClassId} (hclimbs : model.Climbs id child parent) :
    ¬ model.startsSubtree id child = true := fun hstarts =>
  startsSubtree_iff.mp hstarts parent hclimbs.linked hclimbs.parent_owned

theorem Climbs.unique {child left right : ClassId} (hleft : model.Climbs id child left)
    (hright : model.Climbs id child right) : left = right :=
  Option.some.inj (hleft.linked.symm.trans hright.linked)

/-- A class is rooted if its parent within the parcel is, and only then. -/
theorem Climbs.rooted_iff {child parent : ClassId} (hclimbs : model.Climbs id child parent) :
    model.Rooted id child ↔ model.Rooted id parent := by
  constructor
  · rintro ⟨root, hpath, hroot⟩
    rcases hpath.cases_head with rfl | ⟨next, hfirst, hrest⟩
    · exact absurd hroot hclimbs.not_startsSubtree
    · obtain rfl := hclimbs.unique hfirst
      exact ⟨root, hrest, hroot⟩
  · rintro ⟨root, hpath, hroot⟩
    exact ⟨root, hpath.head hclimbs, hroot⟩

theorem LoopsWithin.not_rooted {member : ClassId} (hloops : model.LoopsWithin id member) :
    ¬ model.Rooted id member := by
  rintro ⟨root, hpath, hroot⟩
  induction hpath using Relation.ReflTransGen.head_induction_on with
  | refl =>
      obtain ⟨parent, hclimbs, -⟩ := Relation.TransGen.head'_iff.mp hloops
      exact hclimbs.not_startsSubtree hroot
  | head hfirst _ ih =>
      obtain ⟨parent, hclimbs, hrest⟩ := Relation.TransGen.head'_iff.mp hloops
      obtain rfl := hclimbs.unique hfirst
      exact ih (.tail' hrest hclimbs)

theorem GoesRound.not_rooted {member : ClassId} (hround : model.GoesRound id member) :
    ¬ model.Rooted id member := by
  obtain ⟨looped, hpath, hloops⟩ := hround
  induction hpath using Relation.ReflTransGen.head_induction_on with
  | refl => exact hloops.not_rooted
  | head hclimbs _ ih => exact hclimbs.rooted_iff.not.mpr ih

section Sound

variable (hsound : model.Sound) {member : ClassId} (hmember : member ∈ model.classesOf id)

include hsound hmember

/-- The parent of a class that is not rooted is in the parcel and not rooted
either. -/
theorem Sound.climbs_of_not_rooted (hunrooted : ¬ model.Rooted id member) {parent : ClassId}
    (hparent : model.parent? member = some parent) :
    model.Climbs id member parent ∧ parent ∈ model.classesOf id ∧ ¬ model.Rooted id parent := by
  have howned : model.owner parent = id := by
    by_contra hother
    refine hunrooted ⟨member, .refl, startsSubtree_iff.mpr fun other hlinked => ?_⟩
    obtain rfl := Option.some.inj (hparent.symm.trans hlinked)
    exact hother
  have hclimbs : model.Climbs id member parent :=
    ⟨hparent, howned, hsound.partitioned.owner_of_mem hmember⟩
  exact ⟨hclimbs, hsound.mem_classesOf_of_climbs hmember (.single hclimbs),
    hclimbs.rooted_iff.not.mp hunrooted⟩

theorem Sound.not_rooted_iff : ¬ model.Rooted id member ↔ model.GoesRound id member := by
  refine ⟨fun hunrooted => ?_, GoesRound.not_rooted⟩
  have hfinite : {stray | stray ∈ model.classesOf id ∧ ¬ model.Rooted id stray}.Finite :=
    (List.finite_toSet (model.classesOf id)).subset fun _ hstray => hstray.1
  refine Graph.exists_loop_of_forall_next hfinite (fun stray hstray => ?_) ⟨hmember, hunrooted⟩
  cases hparent : model.parent? stray with
  | none => exact absurd ⟨stray, .refl, by simp [startsSubtree, hparent]⟩ hstray.2
  | some parent =>
      obtain ⟨hclimbs, hwithin⟩ := hsound.climbs_of_not_rooted hstray.1 hstray.2 hparent
      exact ⟨parent, hwithin, hclimbs⟩

/-- A class that is not rooted lies on a cycle of parents only within the
parcel. -/
theorem Sound.onParentCycle_iff (hunrooted : ¬ model.Rooted id member) :
    model.OnParentCycle member ↔ model.LoopsWithin id member := by
  constructor
  · intro hcycle
    suffices hpath : ∀ ancestor,
        Relation.TransGen (fun child parent => model.parent? child = some parent) member ancestor →
          Relation.TransGen (model.Climbs id) member ancestor ∧
            ancestor ∈ model.classesOf id ∧ ¬ model.Rooted id ancestor from
      (hpath member hcycle).1
    intro ancestor hpath
    induction hpath with
    | single hparent =>
        obtain ⟨hclimbs, hwithin⟩ := hsound.climbs_of_not_rooted hmember hunrooted hparent
        exact ⟨.single hclimbs, hwithin⟩
    | tail _ hparent ih =>
        obtain ⟨hclimbs, hwithin⟩ := hsound.climbs_of_not_rooted ih.2.1 ih.2.2 hparent
        exact ⟨ih.1.tail hclimbs, hwithin⟩
  · intro hloops
    exact Relation.TransGen.mono (fun _ _ hclimbs => hclimbs.linked) _ _ hloops

end Sound

/-! ## The class that the error names -/

/-- A sort that reports an inheritance cycle names a class of the parcel that
lies on one. -/
def NamesCycles (model : Model) (id : ParcelId) : Prop :=
  ∀ name after, connectAndSort id model = .error (.inheritanceCycle name) after →
    ∃ member ∈ after.classesOf id, after.className member = name ∧ after.OnParentCycle member

/-- Every class that only hangs on a cycle within the parcel comes by name
after one that lies on such a cycle. -/
def LoopsFirst (model : Model) (id : ParcelId) : Prop :=
  ∀ member ∈ model.classesOf id, model.GoesRound id member → ¬ model.LoopsWithin id member →
    ∃ looped ∈ model.classesOf id, model.LoopsWithin id looped ∧
      model.className looped < model.className member

/-- The first by name of the classes of the parcel that go round. -/
structure FirstRound (model : Model) (id : ParcelId) (first : ClassId) : Prop where
  member : first ∈ model.classesOf id
  round : model.GoesRound id first
  least : ∀ other ∈ model.classesOf id, model.GoesRound id other →
    model.className first ≤ model.className other

theorem Sound.firstUnrooted_iff (hsound : model.Sound) {first : ClassId} :
    model.FirstUnrooted id first ↔ model.FirstRound id first := by
  constructor
  · intro hfirst
    exact ⟨hfirst.member, (hsound.not_rooted_iff hfirst.member).mp hfirst.unrooted,
      fun other hother hround => hfirst.least other hother hround.not_rooted⟩
  · intro hfirst
    exact ⟨hfirst.member, hfirst.round.not_rooted, fun other hother hunrooted =>
      hfirst.least other hother ((hsound.not_rooted_iff hother).mp hunrooted)⟩

/-- A sort reports a cycle when all links are made and some class goes round,
and it names the first such class. -/
theorem Sound.connectAndSort_reports (hsound : model.Sound) :
    Ends (connectAndSort id model)
      (fun _ _ => ∀ member ∈ model.classesOf id, ¬ (model.connected id).GoesRound id member)
      (fun error after =>
        ¬ model.AllLinkable id ∧ (∀ name, error ≠ .inheritanceCycle name) ∨
        model.AllLinkable id ∧ after = model.connected id ∧
          ∃ first, after.FirstRound id first ∧
            error = .inheritanceCycle (after.className first)) := by
  have hconnects := connectAndSort_of_loop (forM_linkParent_ends (hsound.partitioned.nodup id))
  refine (hsound.connectAndSort_decides.and hconnects).mono ?_ ?_
  · rintro _ _ ⟨⟨-, hrooted⟩, -⟩ member hmember hround
    exact hround.not_rooted (hrooted member hmember)
  · rintro error after ⟨⟨hnot, hkind⟩ | ⟨hlinkable, first, hfirst, rfl⟩, hstopped⟩
    · refine .inl ⟨hnot, ?_⟩
      rintro name rfl
      simp [Error.kind] at hkind
    · obtain rfl : after = model.connected id := by
        rcases hstopped with hnot | ⟨⟨-, -, hafter⟩, -⟩
        · exact absurd hlinkable hnot
        · exact hafter
      exact .inr ⟨hlinkable, rfl, first,
        (hsound.connected hlinkable).firstUnrooted_iff.mp hfirst, rfl⟩

/-- The first of the classes that go round lies on a cycle just when those that
lie on one come first. -/
theorem Sound.loopsFirst_iff (hsound : model.Sound) {first : ClassId}
    (hfirst : model.FirstRound id first) :
    model.LoopsFirst id ↔ model.OnParentCycle first := by
  rw [hsound.onParentCycle_iff hfirst.member hfirst.round.not_rooted]
  constructor
  · intro hloopsFirst
    by_contra hhangs
    obtain ⟨looped, hlooped, hloops, hbefore⟩ :=
      hloopsFirst first hfirst.member hfirst.round hhangs
    exact String.not_lt.mpr (hfirst.least looped hlooped ⟨looped, .refl, hloops⟩) hbefore
  · intro hloops member hmember hround hhangs
    refine ⟨first, hfirst.member, hloops, String.not_le.mp fun hle => ?_⟩
    have hname := String.le_antisymm hle (hfirst.least member hmember hround)
    obtain rfl := hsound.partitioned.eq_of_className_eq hmember hfirst.member hname
    exact hhangs hloops

/-- A sort that reports a cycle names a class on a cycle just when the links
cannot all be made, so that it reports none, or the classes on cycles come
first.  In any case it names the first class that goes round. -/
theorem namesCycles_iff (hreachable : model.Reachable) (id : ParcelId) :
    (model.NamesCycles id ↔ (model.AllLinkable id → (model.connected id).LoopsFirst id)) ∧
      ∀ name after, connectAndSort id model = .error (.inheritanceCycle name) after →
        ∃ first, after.FirstRound id first ∧ name = after.className first := by
  have hsound := hreachable.sound
  have hreports : Ends (connectAndSort id model) _ _ := hsound.connectAndSort_reports
  have hnamed : ∀ name after, connectAndSort id model = .error (.inheritanceCycle name) after →
      model.AllLinkable id ∧ after = model.connected id ∧
        ∃ first, after.FirstRound id first ∧ name = after.className first := by
    intro name after hrun
    rw [hrun] at hreports
    rcases hreports with ⟨-, hother⟩ | ⟨hlinkable, hafter, first, hfirst, herror⟩
    · exact absurd rfl (hother name)
    · exact ⟨hlinkable, hafter, first, hfirst, Error.inheritanceCycle.inj herror⟩
  refine ⟨⟨fun hnames hlinkable => ?_, fun hloopsFirst name after hrun => ?_⟩,
    fun name after hrun => (hnamed name after hrun).2.2⟩
  · have hconnected := hsound.connected hlinkable
    cases hrun : connectAndSort id model with
    | ok _ after =>
        rw [hrun] at hreports
        exact fun member hmember hround => absurd hround (hreports member hmember)
    | error error after =>
        rw [hrun] at hreports
        rcases hreports with ⟨hnot, -⟩ | ⟨-, rfl, first, hfirst, rfl⟩
        · exact absurd hlinkable hnot
        · obtain ⟨member, hmember, hname, hcycle⟩ := hnames _ _ hrun
          obtain rfl := hconnected.partitioned.eq_of_className_eq hmember hfirst.member hname
          exact (hconnected.loopsFirst_iff hfirst).mpr hcycle
  · obtain ⟨hlinkable, rfl, first, hfirst, rfl⟩ := hnamed name after hrun
    exact ⟨first, hfirst.member, rfl,
      ((hsound.connected hlinkable).loopsFirst_iff hfirst).mp (hloopsFirst hlinkable)⟩

/-! ## A class that hangs on a cycle -/

/-- `Cow` inherits from itself, and `Calf` from `Cow`. -/
def selfFedFarm : Model :=
  leftBy ((Call.addClass ⟨0⟩ { name := "Calf", parent := some "Cow" }).run
    (leftBy ((Call.addClass ⟨0⟩ { name := "Cow", parent := some "Cow" }).run
      (leftBy ((Call.register farm).run {})))))

theorem selfFedFarm_reachable : selfFedFarm.Reachable := by
  refine .call (.call (.call .empty farm_wellFormed) ?_) ?_
  all_goals exact mem_parcelIds.mpr (by decide)

theorem selfFedFarm_names_calf :
    Ends (connectAndSort ⟨0⟩ selfFedFarm) (fun _ _ => False)
      (fun error after => error = .inheritanceCycle "Calf" ∧
        after.classesOf ⟨0⟩ = [⟨0⟩, ⟨1⟩] ∧ after.className ⟨0⟩ = "Cow" ∧
        after.parent? ⟨0⟩ = some ⟨0⟩ ∧ after.parent? ⟨1⟩ = some ⟨0⟩) := by
  decide

theorem selfFedFarm_not_namesCycles :
    (∃ after, connectAndSort ⟨0⟩ selfFedFarm = .error (.inheritanceCycle "Calf") after) ∧
      ¬ selfFedFarm.NamesCycles ⟨0⟩ := by
  have hends := selfFedFarm_names_calf
  cases hrun : connectAndSort ⟨0⟩ selfFedFarm with
  | ok _ after =>
      rw [hrun] at hends
      exact hends.elim
  | error error after =>
      rw [hrun] at hends
      obtain ⟨rfl, hmembers, hcow, hself, hparent⟩ := hends
      refine ⟨⟨after, rfl⟩, fun hnames => ?_⟩
      obtain ⟨member, hmember, hname, hcycle⟩ := hnames "Calf" after hrun
      -- `Calf` is not `Cow`, which is all that parents lead to.
      have habove : ∀ ancestor, Relation.TransGen
          (fun child parent => after.parent? child = some parent) ⟨1⟩ ancestor →
            ancestor = ⟨0⟩ := by
        intro ancestor hpath
        induction hpath with
        | single hstep => exact Option.some.inj (hstep.symm.trans hparent)
        | tail _ hstep ih =>
            rw [ih, hself] at hstep
            exact (Option.some.inj hstep).symm
      rw [hmembers, List.mem_cons, List.mem_singleton] at hmember
      rcases hmember with rfl | rfl
      · exact absurd (hcow.symm.trans hname) (by decide)
      · exact absurd (habove _ hcycle) (by decide)

theorem selfFedFarm_names_first_round :
    selfFedFarm.Reachable ∧ ¬ selfFedFarm.NamesCycles ⟨0⟩ ∧
      (selfFedFarm.AllLinkable ⟨0⟩ ∧ ¬ (selfFedFarm.connected ⟨0⟩).LoopsFirst ⟨0⟩) ∧
      ∃ after, connectAndSort ⟨0⟩ selfFedFarm = .error (.inheritanceCycle "Calf") after ∧
        ∃ first, after.FirstRound ⟨0⟩ first ∧ "Calf" = after.className first := by
  obtain ⟨hiff, hnamed⟩ := namesCycles_iff selfFedFarm_reachable ⟨0⟩
  obtain ⟨⟨after, hrun⟩, hnot⟩ := selfFedFarm_not_namesCycles
  refine ⟨selfFedFarm_reachable, hnot, ?_, after, hrun, hnamed _ after hrun⟩
  exact Classical.not_imp.mp (hiff.not.mp hnot)

/-- The class that is named may only lead into a cycle. -/
theorem cycles_not_always_named :
    ¬ ∀ (model : Model) (id : ParcelId), model.Reachable → id ∈ model.parcelIds →
      model.NamesCycles id := by
  intro hnamesCycles
  exact selfFedFarm_not_namesCycles.2
    (hnamesCycles selfFedFarm ⟨0⟩ selfFedFarm_reachable (mem_parcelIds.mpr (by decide)))

end Model

end Parcels
