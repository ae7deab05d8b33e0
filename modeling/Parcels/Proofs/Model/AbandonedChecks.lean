import Parcels.Proofs.Model.RequiredParcels

/-!
# Abandoned checks

A check that fails leaves the parcels on its path under way.  A later check
that meets one of them takes it for a parcel of its own path and reports a
cycle.  A check goes down into the first prereq of each parcel that is not
clear; whether this way comes to an abandoned parcel decides whether the check
can be trusted.
-/

namespace Parcels.Model

open Parcels.Graph Relation

variable {model : Model} {id next root : ParcelId} {path : List ParcelId}
variable {prereq : Prereq} {error : Error}

/-! ## The way down -/

/-- All that the parcel leads to is satisfied, free of cycles and not under
way, so that a check passes. -/
structure Clear (model : Model) (id : ParcelId) : Prop where
  holds : model.ClosureHolds id
  idle : ∀ other, Reaches model.prereqParcels id other → other ∉ model.checks.underway

/-- A clear parcel satisfies the prereq. -/
def Cleared (model : Model) (prereq : Prereq) : Prop :=
  ∃ found, model.Satisfies prereq found ∧ model.Clear found

/-- The first prereq of a parcel that no clear parcel satisfies. -/
def FirstUncleared (model : Model) (id : ParcelId) (prereq : Prereq) : Prop :=
  ∃ before after, (model.parcelAt id).prereqs = before ++ prereq :: after ∧
    (∀ earlier ∈ before, model.Cleared earlier) ∧ ¬ model.Cleared prereq

/-- A check goes from a parcel into the next and does not come back. -/
def Descends (model : Model) (id next : ParcelId) : Prop :=
  ∃ prereq, model.FirstUncleared id prereq ∧ model.Satisfies prereq next

/-- The way down from a parcel comes to one that an earlier check has left
under way. -/
def MeetsAbandoned (model : Model) (id : ParcelId) : Prop :=
  ∃ left ∈ model.checks.underway, ReflTransGen model.Descends id left

theorem FirstUncleared.unique {first second : Prereq}
    (hfirst : model.FirstUncleared id first) (hsecond : model.FirstUncleared id second) :
    first = second := by
  obtain ⟨before, after, hprereqs, hcleared, hopen⟩ := hfirst
  obtain ⟨before', after', hprereqs', hcleared', hopen'⟩ := hsecond
  rw [hprereqs, List.append_eq_append_iff] at hprereqs'
  -- Were one of the two the earlier one, it would be cleared.
  rcases hprereqs' with ⟨between, rfl, hrest⟩ | ⟨between, rfl, hrest⟩
  · cases between with
    | nil => exact (List.cons.inj hrest).1
    | cons head tail =>
        obtain ⟨rfl, -⟩ := List.cons.inj hrest
        exact absurd (hcleared' first (by simp)) hopen
  · cases between with
    | nil => exact (List.cons.inj hrest).1.symm
    | cons head tail =>
        obtain ⟨rfl, -⟩ := List.cons.inj hrest
        exact absurd (hcleared second (by simp)) hopen'

theorem Descends.unique {first second : ParcelId} (hfirst : model.Descends id first)
    (hsecond : model.Descends id second) : first = second := by
  obtain ⟨prereq, hprereq, hsatisfies⟩ := hfirst
  obtain ⟨prereq', hprereq', hsatisfies'⟩ := hsecond
  obtain rfl := hprereq.unique hprereq'
  exact Option.some.inj (hsatisfies.registered.symm.trans hsatisfies'.registered)

theorem Descends.edge (hdescends : model.Descends id next) :
    Edge model.prereqParcels id next := by
  obtain ⟨prereq, ⟨before, after, hprereqs, -⟩, hsatisfies⟩ := hdescends
  exact hsatisfies.edge (by simp [hprereqs])

theorem Clear.step (hclear : model.Clear id) (hedge : Edge model.prereqParcels id next) :
    model.Clear next where
  holds :=
    { satisfied := fun holder hpath => hclear.holds.satisfied holder (.head hedge hpath)
      acyclic := fun holder hpath => hclear.holds.acyclic holder (.head hedge hpath) }
  idle := fun other hpath => hclear.idle other (.head hedge hpath)

theorem Clear.not_meetsAbandoned (hclear : model.Clear id) : ¬ model.MeetsAbandoned id := by
  rintro ⟨left, hleft, hway⟩
  exact hclear.idle left (ReflTransGen.mono (fun _ _ => Descends.edge) _ _ hway) hleft

theorem Passed.clear {before after : Checks} (hpassed : model.Passed before after [id])
    (hunderway : model.checks.underway ⊆ before.underway) : model.Clear id where
  holds := hpassed.closureHolds
  idle := by
    intro other hpath hleft
    have hrequired : other ∈ after.required :=
      (hpassed.required_iff other).mpr (.inr ⟨id, by simp, hpath⟩)
    exact hpassed.settled.apart other hrequired (hpassed.underway_eq ▸ hunderway hleft)

/-! ## How a check fails -/

/-- The check has met an abandoned parcel and reports a cycle that is none. -/
structure Misled (model : Model) (root id : ParcelId) (error : Error) : Prop where
  meets : model.MeetsAbandoned id
  names : ∃ names, error = .prereqCycle names
  wrong : ¬ model.Describes root error

/-- The check reports a defect that is there.  The parcels it has entered on
the way down from `id`, its `trail`, are not abandoned, and the way does not
lead out of them but to the path that was there before. -/
structure Justified (model : Model) (root : ParcelId) (path : List ParcelId)
    (id : ParcelId) (error : Error) : Prop where
  describes : model.Describes root error
  turns : ∃ trail : List ParcelId, id ∈ trail ++ path ∧
    (∀ node ∈ trail, node ∉ model.checks.underway) ∧
    ∀ node ∈ trail, ∀ next, model.Descends node next → next ∈ trail ++ path

/-- What is known when the check of a parcel below `path` has failed. -/
structure Fails (model : Model) (root : ParcelId) (path : List ParcelId)
    (id : ParcelId) (error : Error) : Prop where
  unclear : ¬ model.Clear id
  ends : model.Misled root id error ∨ model.Justified root path id error

theorem Justified.not_meetsAbandoned (hjustified : model.Justified root [] id error) :
    ¬ model.MeetsAbandoned id := by
  obtain ⟨trail, hid, hidle, hcloses⟩ := hjustified.turns
  simp only [List.append_nil] at hid hcloses
  rintro ⟨left, hleft, hway⟩
  have htrail : left ∈ trail := by
    clear hleft
    induction hway with
    | refl => exact hid
    | tail _ hstep ih => exact hcloses _ ih _ hstep
  exact hidle left htrail hleft

theorem Misled.meetsAbandoned_of_descends {found : ParcelId}
    (hmisled : model.Misled root found error) (hdescends : model.Descends id found) :
    model.Misled root id error where
  meets := by
    obtain ⟨left, hleft, hway⟩ := hmisled.meets
    exact ⟨left, hleft, .head hdescends hway⟩
  names := hmisled.names
  wrong := hmisled.wrong

theorem Justified.of_descends {found : ParcelId}
    (hjustified : model.Justified root (path ++ [id]) found error)
    (hdescends : model.Descends id found) (hidle : id ∉ model.checks.underway) :
    model.Justified root path id error where
  describes := hjustified.describes
  turns := by
    obtain ⟨trail, hfound, hidleTrail, hcloses⟩ := hjustified.turns
    have hsame : ∀ node, node ∈ trail ++ (path ++ [id]) → node ∈ id :: trail ++ path := by
      intro node hnode
      simp only [List.mem_append, List.mem_cons] at hnode ⊢
      tauto
    refine ⟨id :: trail, by simp, List.forall_mem_cons.mpr ⟨hidle, hidleTrail⟩, ?_⟩
    intro node hnode next hnext
    rcases List.mem_cons.mp hnode with rfl | hnode
    · exact hsame next (hnext.unique hdescends ▸ hfound)
    · exact hsame next (hcloses node hnode next hnext)

/-- The failure of a prereq is passed on. -/
theorem Fails.of_prereq {found : ParcelId}
    (hfails : model.Fails root (path ++ [id]) found error)
    (hidle : id ∉ model.checks.underway) {before after : List Prereq}
    (hprereqs : (model.parcelAt id).prereqs = before ++ prereq :: after)
    (hcleared : ∀ earlier ∈ before, model.Cleared earlier)
    (hsatisfies : model.Satisfies prereq found) : model.Fails root path id error := by
  have hopen : ¬ model.Cleared prereq := by
    rintro ⟨other, hother, hclear⟩
    obtain rfl : found = other :=
      Option.some.inj (hsatisfies.registered.symm.trans hother.registered)
    exact hfails.unclear hclear
  have hdescends : model.Descends id found :=
    ⟨prereq, ⟨before, after, hprereqs, hcleared, hopen⟩, hsatisfies⟩
  refine ⟨fun hclear => hfails.unclear (hclear.step hdescends.edge), ?_⟩
  rcases hfails.ends with hmisled | hjustified
  · exact .inl (hmisled.meetsAbandoned_of_descends hdescends)
  · exact .inr (hjustified.of_descends hdescends hidle)

/-- A prereq that no registered parcel satisfies stops the check. -/
theorem Fails.of_satisfy (hpath : Reaches model.prereqParcels root id)
    (hidle : id ∉ model.checks.underway) {before after : List Prereq}
    (hprereqs : (model.parcelAt id).prereqs = before ++ prereq :: after)
    (hcleared : ∀ earlier ∈ before, model.Cleared earlier)
    (hsatisfy : model.satisfy (model.parcelAt id).name prereq = .error error) :
    model.Fails root path id error := by
  have hprereq : prereq ∈ (model.parcelAt id).prereqs := by simp [hprereqs]
  have hnone : ∀ found, ¬ model.Satisfies prereq found := by
    intro found hsatisfies
    have hok : model.satisfy (model.parcelAt id).name prereq = .ok found :=
      satisfy_eq_ok_iff.mpr hsatisfies
    rw [hsatisfy] at hok
    cases hok
  have hfirst : model.FirstUncleared id prereq :=
    ⟨before, after, hprereqs, hcleared, fun ⟨found, hsatisfies, _⟩ => hnone found hsatisfies⟩
  refine ⟨fun hclear => ?_, .inr ⟨describes_of_satisfy hpath hprereq hsatisfy, [id], ?_⟩⟩
  · obtain ⟨found, hsatisfies⟩ := hclear.holds.satisfied id .refl prereq hprereq
    exact hnone found hsatisfies
  · refine ⟨by simp, by simpa using hidle, fun node hnode next hnext => ?_⟩
    obtain rfl := List.mem_singleton.mp hnode
    obtain ⟨other, hother, hsatisfies⟩ := hnext
    exact absurd (hother.unique hfirst ▸ hsatisfies) (hnone next)

/-! ## Parcels that are met under way -/

theorem onCycle_of_mem_path (hcame : model.Came root path id) (hagain : id ∈ path) :
    OnCycle model.prereqParcels id := by
  obtain ⟨before, after, rfl⟩ := List.append_of_mem hagain
  have hchain : (id :: (after ++ [id])).IsChain (Edge model.prereqParcels) := by
    have hwhole := hcame.chain
    rw [List.append_assoc, List.isChain_append] at hwhole
    exact hwhole.2.1
  obtain ⟨second, rest, hrest⟩ : ∃ second rest, after ++ [id] = second :: rest :=
    List.exists_cons_of_ne_nil (by simp)
  have hclosed : some id = (id :: (after ++ [id])).getLast? := by
    rw [← List.cons_append, List.getLast?_concat]
  rw [hrest] at hchain hclosed
  exact onCycle_of_isChain hclosed hchain

/-- The names that are reported do not close to a cycle. -/
theorem not_describes_cycleError (hdistinct : model.DistinctNames)
    (hknown : ∀ node ∈ path ++ [id], node ∈ model.parcelIds) (hnew : id ∉ path) :
    ¬ model.Describes root (model.cycleError path id) := by
  have hwhole : model.cycleError path id =
      .prereqCycle ((path ++ [id]).map fun node => (model.parcelAt node).name) := by
    rw [cycleError, List.idxOf?_eq_none_iff.mpr hnew]
    rfl
  rw [hwhole]
  rintro ⟨cycle, hnames, hlength, hclosed, -⟩
  have hcount := congrArg List.length hnames
  have hends : ((path ++ [id]).map fun node => (model.parcelAt node).name).head? =
      ((path ++ [id]).map fun node => (model.parcelAt node).name).getLast? := by
    rw [hnames, List.head?_map, List.getLast?_map, hclosed]
  cases path with
  | nil =>
      simp only [List.nil_append, List.length_map, List.length_singleton] at hcount
      omega
  | cons first rest =>
      have hname : (model.parcelAt first).name = (model.parcelAt id).name := by
        simpa [List.getLast?_cons] using hends
      obtain rfl := hdistinct first (hknown first (by simp)) id (hknown id (by simp)) hname
      exact hnew List.mem_cons_self

theorem Came.fails (hcame : model.Came root path id) (hdistinct : model.DistinctNames)
    (hroot : root ∈ model.parcelIds)
    (hmet : id ∈ path.reverse ++ model.checks.underway) :
    model.Fails root path id (model.cycleError path id) := by
  by_cases hagain : id ∈ path
  · have hcycle := onCycle_of_mem_path hcame hagain
    exact
      { unclear := fun hclear => hclear.holds.acyclic id .refl hcycle
        ends := .inr ⟨hcame.describes_cycleError hagain, [], by simpa using hagain,
          by simp, by simp⟩ }
  · have hleft : id ∈ model.checks.underway := by simpa [hagain] using hmet
    have hknown : ∀ node ∈ path ++ [id], node ∈ model.parcelIds := fun node hnode =>
      (hcame.reaches node hnode).within (· ∈ model.parcelIds)
        (fun _ _ _ hedge => prereqParcels_subset model _ hedge) hroot
    exact
      { unclear := fun hclear => hclear.idle id .refl hleft
        ends := .inl ⟨⟨id, hleft, .refl⟩, ⟨_, rfl⟩,
          not_describes_cycleError hdistinct hknown hagain⟩ }

/-! ## The walk -/

/-- The walk has come along `path` to a parcel; what else is under way was
abandoned before it began. -/
structure Walking (model : Model) (root : ParcelId) (bound : Nat) (path : List ParcelId)
    (id : ParcelId) (checks : Checks) : Prop where
  settled : model.Settled checks
  known : id ∈ model.parcelIds
  came : model.Came root path id
  room : model.parcels.size ≤ checks.underway.length + bound
  underway_eq : checks.underway = path.reverse ++ model.checks.underway

section Walk

variable {bound : Nat} {checks during : Checks}

theorem Walking.passes (hwalking : model.Walking root bound path id checks) :
    Ends (model.checkFrom bound path id checks)
      (fun _ after => model.Passed checks after [id]) (fun _ _ => True) :=
  (checkFrom_ends bound path id checks hwalking.settled hwalking.known hwalking.came
    hwalking.room).mono (fun _ _ hpassed => hpassed) fun _ _ _ => trivial

theorem Walking.idle (hwalking : model.Walking root bound path id checks)
    (hunderway : id ∉ checks.underway) : id ∉ model.checks.underway :=
  fun hleft => hunderway (hwalking.underway_eq ▸ List.mem_append_right _ hleft)

theorem Walking.fails_of_underway (hwalking : model.Walking root bound path id checks)
    (hdistinct : model.DistinctNames) (hroot : root ∈ model.parcelIds)
    (hunderway : id ∈ checks.underway) :
    model.Fails root path id (model.cycleError path id) :=
  hwalking.came.fails hdistinct hroot (hwalking.underway_eq ▸ hunderway)

/-- From a parcel that has been entered the walk goes on to a prereq. -/
theorem Walking.step (hwalking : model.Walking root (bound + 1) path id checks)
    (hsettled : model.Settled during) (hduring : during.underway = id :: checks.underway)
    (hprereq : prereq ∈ (model.parcelAt id).prereqs)
    (hsatisfies : model.Satisfies prereq next) :
    model.Walking root bound (path ++ [id]) next during where
  settled := hsettled
  known := (parcelNamed?_eq_some hsatisfies.registered).1
  came := hwalking.came.step (hsatisfies.edge hprereq)
  room := by
    have hroom := hwalking.room
    rw [hduring, List.length_cons]
    omega
  underway_eq := by simp [hduring, hwalking.underway_eq]

/-- The prereqs of an entered parcel are checked one after another. -/
theorem forM_checkPrereq_fails (hwalking : model.Walking root (bound + 1) path id checks)
    (hrequired : id ∉ checks.required) (hunderway : id ∉ checks.underway)
    (hcheck : ∀ found during, model.Walking root bound (path ++ [id]) found during →
      Ends (model.checkFrom bound (path ++ [id]) found during)
        (fun _ _ => True) (fun error _ => model.Fails root (path ++ [id]) found error)) :
    Ends ((model.parcelAt id).prereqs.forM (model.checkPrereq bound path id)
        { checks with underway := id :: checks.underway })
      (fun _ _ => True) (fun error _ => model.Fails root path id error) := by
  have hidle := hwalking.idle hunderway
  refine (Ends.forM (fun done during => model.Settled during ∧
    during.underway = id :: checks.underway ∧ ∀ earlier ∈ done, model.Cleared earlier)
    ?step ?start).imp fun _ _ _ => trivial
  case start => exact ⟨hwalking.settled.enter hwalking.known hrequired hunderway, rfl, by simp⟩
  case step =>
    rintro done prereq rest during hprereqs ⟨hsettled, hduring, hcleared⟩
    have hprereq : prereq ∈ (model.parcelAt id).prereqs := by simp [hprereqs]
    unfold checkPrereq
    cases hsatisfy : model.satisfy (model.parcelAt id).name prereq with
    | error error =>
        exact .of_satisfy (hwalking.came.reaches id (by simp)) hidle hprereqs hcleared hsatisfy
    | ok found =>
        have hsatisfies := satisfy_eq_ok_iff.mp hsatisfy
        have hfound := hwalking.step hsettled hduring hprereq hsatisfies
        refine (hfound.passes.and (hcheck found during hfound)).mono ?_ ?_
        · rintro _ after ⟨hpassed, -⟩
          have hclear : model.Clear found := hpassed.clear (by
            rw [hfound.underway_eq]
            exact List.subset_append_right _ _)
          refine ⟨hpassed.settled, hpassed.underway_eq.trans hduring, ?_⟩
          simpa [or_imp, forall_and] using ⟨hcleared, found, hsatisfies, hclear⟩
        · rintro error _ ⟨-, hfails⟩
          exact hfails.of_prereq hidle hprereqs hcleared hsatisfies

/-- The induction is on the bound, which is not met here either. -/
theorem Walking.fails (hdistinct : model.DistinctNames) (hroot : root ∈ model.parcelIds)
    (hwalking : model.Walking root bound path id checks) :
    Ends (model.checkFrom bound path id checks) (fun _ _ => True)
      (fun error _ => model.Fails root path id error) := by
  induction bound generalizing path id checks with
  | zero =>
      have hall := hwalking.settled.mem_underway_of_full hwalking.known hwalking.room
      have hrequired : id ∉ checks.required := fun hmem => hwalking.settled.apart id hmem hall
      rw [checkFrom_eq, if_neg hrequired, if_pos hall]
      exact hwalking.fails_of_underway hdistinct hroot hall
  | succ bound ih =>
      rw [checkFrom_eq]
      split
      · trivial
      · next hrequired =>
        split
        · next hunderway => exact hwalking.fails_of_underway hdistinct hroot hunderway
        · next hunderway =>
          refine Ends.bind ((forM_checkPrereq_fails hwalking hrequired hunderway
            fun found during => ih).imp fun _ _ _ => ?_)
          trivial

end Walk

/-! ## Answers -/

/-- What a check of a parcel says is true: an error names a defect that is
there, and nothing but such a defect stands in the way of a pass. -/
structure AnswersTruly (model : Model) (id : ParcelId) : Prop where
  describes : ∀ error after, checkPrereqs id model = .error error after →
    model.Describes id error
  passes : model.ClosureHolds id → ∃ after, checkPrereqs id model = .ok () after

theorem checkPrereqs_clear_or_fails (hsound : model.Sound) (hdistinct : model.DistinctNames)
    (hid : id ∈ model.parcelIds) :
    Ends (checkPrereqs id model)
      (fun _ _ => model.Clear id) (fun error _ => model.Fails id [] id error) := by
  have hwalking : model.Walking id model.parcels.size [] id model.checks :=
    { settled := hsound.settled
      known := hid
      came := .start id
      room := Nat.le_add_left _ _
      underway_eq := rfl }
  have hwalk := hwalking.passes.and (hwalking.fails hdistinct hid)
  unfold checkPrereqs
  cases hrun : model.checkFrom model.parcels.size [] id model.checks with
  | ok _ checks =>
      rw [hrun] at hwalk
      exact hwalk.1.clear (List.Subset.refl _)
  | error error checks =>
      rw [hrun] at hwalk
      exact hwalk.2

theorem answersTruly_of_not_meetsAbandoned (hsound : model.Sound)
    (hdistinct : model.DistinctNames) (hid : id ∈ model.parcelIds)
    (hfree : ¬ model.MeetsAbandoned id) : model.AnswersTruly id := by
  have hends := checkPrereqs_clear_or_fails hsound hdistinct hid
  have hdescribes : ∀ error after, checkPrereqs id model = .error error after →
      model.Describes id error := by
    intro error after hrun
    rw [hrun] at hends
    rcases hends.ends with hmisled | hjustified
    · exact absurd hmisled.meets hfree
    · exact hjustified.describes
  refine ⟨hdescribes, fun hholds => ?_⟩
  cases hrun : checkPrereqs id model with
  | ok _ after => exact ⟨after, rfl⟩
  | error error after => exact absurd (hdescribes error after hrun) hholds.not_describes

theorem AnswersTruly.not_meetsAbandoned (htruly : model.AnswersTruly id)
    (hsound : model.Sound) (hdistinct : model.DistinctNames) (hid : id ∈ model.parcelIds) :
    ¬ model.MeetsAbandoned id := by
  have hends := checkPrereqs_clear_or_fails hsound hdistinct hid
  cases hrun : checkPrereqs id model with
  | ok _ after =>
      rw [hrun] at hends
      exact hends.not_meetsAbandoned
  | error error after =>
      rw [hrun] at hends
      rcases hends.ends with hmisled | hjustified
      · exact absurd (htruly.describes error after hrun) hmisled.wrong
      · exact hjustified.not_meetsAbandoned

/-- The check of a parcel answers truly just when its way down meets no parcel
that a failed check has abandoned, and all checks do just when there is none.
What is said wrongly is always that there is a cycle. -/
theorem answersTruly_iff (hreachable : model.Reachable) :
    (∀ id ∈ model.parcelIds, (model.AnswersTruly id ↔ ¬ model.MeetsAbandoned id)) ∧
    ((∀ id ∈ model.parcelIds, model.AnswersTruly id) ↔ model.checks.underway = []) ∧
    ∀ id ∈ model.parcelIds, ∀ error after, checkPrereqs id model = .error error after →
      model.Describes id error ∨ ∃ names, error = .prereqCycle names := by
  have hsound := hreachable.sound
  have hdistinct := hreachable.distinctNames
  have hiff : ∀ id ∈ model.parcelIds, (model.AnswersTruly id ↔ ¬ model.MeetsAbandoned id) :=
    fun id hid => ⟨fun htruly => htruly.not_meetsAbandoned hsound hdistinct hid,
      answersTruly_of_not_meetsAbandoned hsound hdistinct hid⟩
  refine ⟨hiff, ⟨?_, ?_⟩, ?_⟩
  · intro hall
    refine List.eq_nil_iff_forall_not_mem.mpr fun left hleft => ?_
    have hknown := hsound.settled.underway_known hleft
    exact (hiff left hknown).mp (hall left hknown) ⟨left, hleft, .refl⟩
  · intro hnone id hid
    refine (hiff id hid).mpr ?_
    rintro ⟨left, hleft, -⟩
    simp [hnone] at hleft
  · intro id hid error after hrun
    have hends := checkPrereqs_clear_or_fails hsound hdistinct hid
    rw [hrun] at hends
    rcases hends.ends with hmisled | hjustified
    · exact .inr hmisled.names
    · exact .inl hjustified.describes

/-! ## A check that is made again -/

/-- The nest in which the check of `Wasp` has failed, for want of `Hornet`:
made again, it reports that `Wasp` is a cycle by itself. -/
theorem halfCheckedNest_recheck :
    Ends (checkPrereqs ⟨2⟩ halfCheckedNest) (fun _ _ => False)
        (fun error _ => error = .prereqCycle ["Wasp"]) ∧
      halfCheckedNest.checks.underway = [⟨2⟩] := by
  decide

theorem halfCheckedNest_answers :
    halfCheckedNest.Reachable ∧ (⟨2⟩ ∈ halfCheckedNest.parcelIds ∧
      halfCheckedNest.MeetsAbandoned ⟨2⟩ ∧ ¬ halfCheckedNest.AnswersTruly ⟨2⟩) ∧
      ⟨1⟩ ∈ halfCheckedNest.parcelIds ∧ halfCheckedNest.AnswersTruly ⟨1⟩ := by
  obtain ⟨-, hunderway⟩ := halfCheckedNest_recheck
  have hreachable := halfCheckedNest_reachable
  have hwasp : ⟨2⟩ ∈ halfCheckedNest.parcelIds := mem_parcelIds.mpr (by decide)
  have hbee : ⟨1⟩ ∈ halfCheckedNest.parcelIds := mem_parcelIds.mpr (by decide)
  have hmeets : halfCheckedNest.MeetsAbandoned ⟨2⟩ := ⟨⟨2⟩, by simp [hunderway], .refl⟩
  obtain ⟨hiff, -, -⟩ := answersTruly_iff hreachable
  have hpassed := Passed.of_required hreachable.sound.settled
    (show ⟨1⟩ ∈ halfCheckedNest.checks.required by decide)
  have hclear : halfCheckedNest.Clear ⟨1⟩ := hpassed.clear (List.Subset.refl _)
  exact ⟨hreachable, ⟨hwasp, hmeets, fun htruly => (hiff _ hwasp).mp htruly hmeets⟩,
    hbee, (hiff _ hbee).mpr hclear.not_meetsAbandoned⟩

/-- A check may report a cycle that is none, once a check before it has failed. -/
theorem checks_not_always_true :
    ¬ ∀ model : Model, model.Reachable → ∀ id ∈ model.parcelIds, ∀ names after,
      checkPrereqs id model = .error (.prereqCycle names) after →
        model.Describes id (.prereqCycle names) := by
  intro hdescribes
  obtain ⟨hends, -⟩ := halfCheckedNest_recheck
  cases hrun : checkPrereqs ⟨2⟩ halfCheckedNest with
  | ok _ after =>
      rw [hrun] at hends
      exact hends
  | error error after =>
      rw [hrun] at hends
      obtain rfl : error = .prereqCycle ["Wasp"] := hends
      obtain ⟨cycle, hnames, hlength, -⟩ := hdescribes halfCheckedNest halfCheckedNest_reachable ⟨2⟩
        (mem_parcelIds.mpr (by decide)) ["Wasp"] after hrun
      have hcount := congrArg List.length hnames
      simp only [List.length_map, List.length_singleton] at hcount
      omega

end Parcels.Model
