import Parcels.Proofs.Model.PrereqClosure
import Parcels.Proofs.Model.SetUp

/-!
# Runs in another order

A run sets a model up and then sorts every parcel once.  Sorting one parcel
neither helps nor hinders another, since links are not looked at to find a
parent, so the order of the sorts does not matter.  Neither does the order of
the entries, which decides only where parcels and classes are kept.
-/

namespace Parcels.Model

/-! ## Sorting all parcels -/

/-- Every parcel can be connected. -/
def AllConnectable (model : Model) : Prop :=
  ∀ id ∈ model.parcelIds, model.Connectable id

def sortNamed (name : String) : Action Model Unit :=
  callOn name .connectAndSort

/-- What the sorts of the parcels with the names `done` have made of the model
`start`. -/
structure SortedFrom (start : Model) (done : List String) (model : Model) :
    Prop where
  sound : model.Sound
  specs_eq : model.specs = start.specs
  classes_eq : model.classes = start.classes
  connectable : ∀ id ∈ start.parcelIds, (start.parcelAt id).name ∈ done →
    start.Connectable id
  sorted : ∀ id ∈ start.parcelIds, (start.parcelAt id).name ∈ done →
    model.classesOf id = (start.connected id).inheritanceOrder id
  parent?_eq : ∀ member ∈ start.classIds, model.parent? member =
    if (start.parcelAt (start.owner member)).name ∈ done then
      start.prospectiveParent? (start.owner member) member
    else start.parent? member

section Sorts

variable {start model : Model} {done : List String} {id : ParcelId}

theorem SortedFrom.zero (hsound : start.Sound) : SortedFrom start [] start where
  sound := hsound
  specs_eq := rfl
  classes_eq := rfl
  connectable := by simp
  sorted := by simp
  parent?_eq := by simp

section Next

variable (hsorted : SortedFrom start done model) (hsound : start.Sound)
  (hdistinct : start.DistinctNames) (hid : id ∈ start.parcelIds)
  (hnew : (start.parcelAt id).name ∉ done)

include hsorted hsound hnew

theorem SortedFrom.sameParents : SameParents (.refl ClassId) start model id := by
  intro member hmember
  obtain ⟨hknown, howner⟩ := hsound.partitioned.mem_classesOf_iff.mp hmember
  have hparent := hsorted.parent?_eq member hknown
  rw [howner, if_neg hnew] at hparent
  simpa using hparent

include hdistinct

/-- The sorts before do not decide whether a parcel can be connected. -/
theorem SortedFrom.connectable_iff : model.Connectable id ↔ start.Connectable id :=
  (Renames.refl hsorted.specs_eq hsorted.classes_eq).connectable_iff hsound
    hsorted.sound (hsorted.sameParents hsound hnew) hdistinct

include hid

/-- One more parcel is sorted. -/
theorem SortedFrom.next (hpasses : model.Connectable id) :
    SortedFrom start (done ++ [(start.parcelAt id).name])
      ((model.connected id).setClasses id ((model.connected id).inheritanceOrder id)) := by
  have hrenames := Renames.refl hsorted.specs_eq hsorted.classes_eq
  have hparents := hsorted.sameParents hsound hnew
  have hpasses' := (hsorted.connectable_iff hsound hdistinct hnew).mp hpasses
  have hlinks := makesLinks_connected (hsorted.sound.partitioned.nodup id) hpasses.1
  have hdone : ∀ other ∈ start.parcelIds,
      (start.parcelAt other).name ∈ done ++ [(start.parcelAt id).name] ↔
        (start.parcelAt other).name ∈ done ∨ other = id := by
    intro other hother
    rw [List.mem_append, List.mem_singleton]
    exact or_congr_right ⟨hdistinct other hother id hid, fun hsame => hsame ▸ rfl⟩
  constructor
  case sound => exact hsorted.sound.effect (.sorted hlinks hpasses.2)
  case specs_eq => rw [specs_setClasses, ← hsorted.specs_eq]; rfl
  case classes_eq => exact hsorted.classes_eq
  case connectable =>
    intro other hother hmem
    rcases (hdone other hother).mp hmem with hbefore | rfl
    · exact hsorted.connectable other hother hbefore
    · exact hpasses'
  case sorted =>
    intro other hother hmem
    by_cases hsame : other = id
    · subst hsame
      have horder := hrenames.connected_order_eq hsound hsorted.sound hparents
        hdistinct hpasses'.1
      have hknown : other ∈ (model.connected other).parcelIds := by
        rw [← parcelIds_congr hsorted.specs_eq] at hother
        exact hother
      rw [classesOf_setClasses_self hknown]
      simpa using horder
    · rw [classesOf_setClasses_of_ne hsame]
      exact hsorted.sorted other hother
        (((hdone other hother).mp hmem).resolve_right hsame)
  case parent?_eq =>
    intro member hmember
    have howner := hsound.partitioned.owner_known member hmember
    change (model.connected id).parent? member = _
    rw [connected, parent?_linking]
    by_cases hsame : start.owner member = id
    · subst hsame
      have hlisted := hsound.partitioned.mem_classesOf_owner hmember
      have hprospect := hrenames.prospectiveParent?_eq hsound hsorted.sound hparents
        hdistinct hlisted
      have hlisted' : member ∈ model.classesOf (start.owner member) :=
        (hrenames.mem_classesOf_iff hsound hsorted.sound).mpr hlisted
      rw [if_pos hlisted', if_pos ((hdone _ howner).mpr (.inr rfl))]
      simpa using hprospect
    · -- Classes of other parcels keep what the sorts before gave them.
      have hother : member ∉ model.classesOf id := by
        intro hlisted
        have howns := hsorted.sound.partitioned.owner_of_mem hlisted
        rw [owner_congr hsorted.classes_eq] at howns
        exact hsame howns
      rw [if_neg hother, hsorted.parent?_eq member hmember]
      simp only [hdone _ howner, hsame, or_false]

end Next

/-- In any order, the sorts of all parcels pass just when every parcel can be
connected. -/
theorem sortAll_ends (hsound : start.Sound) (hdistinct : start.DistinctNames)
    {names : List String} (hnodup : names.Nodup)
    (hnames : ∀ name ∈ names, ∃ id, start.parcelNamed? name = some id) :
    Ends (names.forM sortNamed start) (fun _ => SortedFrom start names)
      (fun _ _ => ¬ start.AllConnectable) := by
  apply Ends.forM (SortedFrom start) _ (.zero hsound)
  intro done name rest model hsplit hsorted
  have hnew : name ∉ done := by
    rw [hsplit, List.nodup_append] at hnodup
    exact fun hmem => hnodup.2.2 name hmem name (by simp) rfl
  obtain ⟨id, hnamed⟩ := hnames name (by simp [hsplit])
  obtain ⟨hid, rfl⟩ := parcelNamed?_eq_some hnamed
  rw [sortNamed, callOn_of_named
    ((parcelNamed?_congr hsorted.specs_eq _).trans hnamed)]
  apply (connectAndSort_connects (hsorted.sound.partitioned.nodup id)).mono
  · intro _ after hafter
    obtain ⟨hpasses, rfl⟩ := hafter
    exact hsorted.next hsound hdistinct hid hnew hpasses
  · intro _ after hstopped hall
    exact hstopped ((hsorted.connectable_iff hsound hdistinct hnew).mpr (hall id hid))

end Sorts

section Renamed

variable {parcels : ParcelId ≃ ParcelId} {classes : ClassId ≃ ClassId}
  {start start' : Model} (hrenames : Renames parcels classes start start')
  (hsound : start.Sound) (hsound' : start'.Sound) (hdistinct : start.DistinctNames)
  (hparents : ∀ id, SameParents classes start start' id)

include hrenames hsound hsound' hdistinct hparents

theorem Renames.allConnectable_iff : start'.AllConnectable ↔ start.AllConnectable := by
  rw [AllConnectable, AllConnectable, ← parcels.forall_congr_right]
  refine forall_congr' fun id => ?_
  rw [hrenames.parcel_known, hrenames.connectable_iff hsound hsound' (hparents id)
    hdistinct]

/-- With all parcels sorted, both models list the same names. -/
theorem Renames.sorted_listing_eq {names names' : List String} {after after' : Model}
    (hsorted : SortedFrom start names after)
    (hsorted' : SortedFrom start' names' after')
    (hall : ∀ id ∈ start.parcelIds, (start.parcelAt id).name ∈ names)
    (hall' : ∀ id ∈ start'.parcelIds, (start'.parcelAt id).name ∈ names') :
    after'.listing = after.listing := by
  have hafter : Renames parcels classes after after' := hrenames.congr
    hsorted.specs_eq hsorted.classes_eq hsorted'.specs_eq hsorted'.classes_eq
  have hdistinctAfter : after.DistinctNames :=
    (Renames.refl hsorted.specs_eq hsorted.classes_eq).distinctNames hdistinct
  apply hafter.listing_eq hsorted.sound hdistinctAfter
  · intro id hid
    rw [parcelIds_congr hsorted.specs_eq] at hid
    have hid' := (hrenames.parcel_known id).mpr hid
    have hpasses := hsorted.connectable id hid (hall id hid)
    rw [hsorted.sorted id hid (hall id hid), hsorted'.sorted _ hid' (hall' _ hid')]
    exact hrenames.connected_order_eq hsound hsound' (hparents id) hdistinct hpasses.1
  · intro id member hmember
    have hknown : member ∈ start.classIds := by
      have hlisted := hsorted.sound.partitioned.mem_classIds_of_mem hmember
      rwa [classIds, hsorted.classes_eq] at hlisted
    have howner := hsound.partitioned.owner_known member hknown
    have hknown' := (hrenames.class_known member).mpr hknown
    have howner' := hsound'.partitioned.owner_known _ hknown'
    rw [hsorted.parent?_eq member hknown, if_pos (hall _ howner),
      hsorted'.parent?_eq _ hknown', if_pos (hall' _ howner'),
      hrenames.owner_eq hknown]
    exact hrenames.prospectiveParent?_eq hsound hsound' (hparents _) hdistinct
      (hsound.partitioned.mem_classesOf_owner hknown)

end Renamed

/-! ## Runs -/

/-- What a model is set up from and the names of the parcels to sort, both in
order. -/
structure Run where
  entries : List Entry
  sorts : List String

namespace Run

def parcelNames (run : Run) : List String :=
  (run.entries.filterMap Entry.parcel?).map Parcel.name

/-- Parcels join before their classes, and each is sorted once. -/
structure Proper (run : Run) : Prop where
  in_turn : InTurn run.entries
  sorts_all : run.sorts.Perm run.parcelNames

def setUp (run : Run) : Action Model Unit :=
  run.entries.forM enter

def whole (run : Run) : Action Model Unit := do
  run.setUp
  run.sorts.forM sortNamed

/-- The runs fail at the same stage, if at all, and leave the same lists of
classes with the same parents. -/
structure Agrees (first second : Run) : Prop where
  set_up_iff : (∃ model, first.setUp {} = .ok () model) ↔
    ∃ model, second.setUp {} = .ok () model
  whole_iff : (∃ model, first.whole {} = .ok () model) ↔
    ∃ model, second.whole {} = .ok () model
  listing_eq : ∀ model model', first.whole {} = .ok () model →
    second.whole {} = .ok () model' → model.listing = model'.listing

/-! ### How a run ends -/

variable {run first second : Run} {start : Model}

theorem Proper.mem_sorts (hproper : run.Proper) (hset : SetUp run.entries start) :
    ∀ id ∈ start.parcelIds, (start.parcelAt id).name ∈ run.sorts := by
  intro id hid
  apply hproper.sorts_all.symm.subset
  rw [parcelNames, ← hset.specs_eq]
  exact List.mem_map_of_mem (exists_parcelAt_iff.mp ⟨id, hid, rfl⟩)

theorem setUp_ends (hproper : run.Proper) :
    Ends (run.setUp {}) (fun _ => SetUp run.entries) (fun _ _ => ¬ Fits run.entries) :=
  Model.setUp_ends hproper.in_turn

theorem setUp_passes_iff (hproper : run.Proper) :
    (∃ start, run.setUp {} = .ok () start) ↔ Fits run.entries :=
  (setUp_ends hproper).exists_ok_iff fun _ hset => hset.fits

/-- A run sets the model up and then sorts all parcels, or one of them cannot be
connected. -/
theorem whole_ends (hproper : run.Proper) :
    Ends (run.whole {})
      (fun _ after => ∃ start, run.setUp {} = .ok () start ∧
        SetUp run.entries start ∧ SortedFrom start run.sorts after)
      (fun _ _ => ¬ ∃ start, run.setUp {} = .ok () start ∧ start.AllConnectable) := by
  apply Ends.bind
  cases hrun : run.setUp {} with
  | error error stopped => simp
  | ok _ start =>
      have hset := (setUp_ends hproper).of_eq_ok hrun
      have hnodup : run.sorts.Nodup := by
        rw [hproper.sorts_all.nodup_iff, parcelNames, ← hset.specs_eq]
        exact hset.nodup_names
      have hnames : ∀ name ∈ run.sorts, ∃ id, start.parcelNamed? name = some id := by
        intro name hname
        have hmem := hproper.sorts_all.subset hname
        rw [parcelNames, ← hset.specs_eq] at hmem
        obtain ⟨parcel, hparcel, rfl⟩ := List.mem_map.mp hmem
        apply Option.ne_none_iff_exists'.mp
        exact fun hnone => parcelNamed?_eq_none_iff.mp hnone parcel hparcel rfl
      apply (sortAll_ends hset.sound hset.distinctNames hnodup hnames).mono
      · exact fun _ after hsorted => ⟨start, rfl, hset, hsorted⟩
      · -- No other model is set up, so this one decides.
        intro _ stopped hnot hall
        obtain ⟨other, hother, hconnectable⟩ := hall
        cases hother
        exact hnot hconnectable

/-- A run passes just when its set-up does and every parcel can then be
connected. -/
theorem passes_iff (hproper : run.Proper) : (∃ after, run.whole {} = .ok () after) ↔
    ∃ start, run.setUp {} = .ok () start ∧ start.AllConnectable := by
  apply (whole_ends hproper).exists_ok_iff
  rintro after ⟨start, hstart, hset, hsorted⟩
  refine ⟨start, hstart, fun id hid => ?_⟩
  exact hsorted.connectable id hid (hproper.mem_sorts hset id hid)

theorem setUp_passes_iff_of_perm (hentries : first.entries.Perm second.entries)
    (hfirst : first.Proper) (hsecond : second.Proper) :
    (∃ start, first.setUp {} = .ok () start) ↔
      ∃ start, second.setUp {} = .ok () start := by
  rw [setUp_passes_iff hfirst, setUp_passes_iff hsecond]
  exact ⟨Fits.perm hentries, Fits.perm hentries.symm⟩

theorem passes_of_perm (hentries : first.entries.Perm second.entries)
    (hfirst : first.Proper) (hsecond : second.Proper)
    (hpasses : ∃ after, first.whole {} = .ok () after) :
    ∃ after, second.whole {} = .ok () after := by
  obtain ⟨start, hstart, hall⟩ := (passes_iff hfirst).mp hpasses
  obtain ⟨start', hstart'⟩ :=
    (setUp_passes_iff_of_perm hentries hfirst hsecond).mp ⟨start, hstart⟩
  have hset := (setUp_ends hfirst).of_eq_ok hstart
  have hset' := (setUp_ends hsecond).of_eq_ok hstart'
  obtain ⟨parcels, classes, hrenames, hparents⟩ := hset.exists_renames hset' hentries
  have hall' : start'.AllConnectable := (hrenames.allConnectable_iff hset.sound
    hset'.sound hset.distinctNames hparents).mpr hall
  exact (passes_iff hsecond).mpr ⟨start', hstart', hall'⟩

theorem listing_eq_of_perm {after after' : Model}
    (hentries : first.entries.Perm second.entries)
    (hfirst : first.Proper) (hsecond : second.Proper)
    (hafter : first.whole {} = .ok () after)
    (hafter' : second.whole {} = .ok () after') : after'.listing = after.listing := by
  obtain ⟨start, _, hset, hsorted⟩ := (whole_ends hfirst).of_eq_ok hafter
  obtain ⟨start', _, hset', hsorted'⟩ := (whole_ends hsecond).of_eq_ok hafter'
  obtain ⟨parcels, classes, hrenames, hparents⟩ := hset.exists_renames hset' hentries
  exact hrenames.sorted_listing_eq hset.sound hset'.sound hset.distinctNames hparents
    hsorted hsorted' (hfirst.mem_sorts hset) (hsecond.mem_sorts hset')

/-- Neither the order in which parcels and classes join nor the order in which
parcels are sorted makes a difference. -/
theorem agrees_of_perm (hentries : first.entries.Perm second.entries)
    (hfirst : first.Proper) (hsecond : second.Proper) : first.Agrees second := by
  constructor
  case set_up_iff => exact setUp_passes_iff_of_perm hentries hfirst hsecond
  case whole_iff =>
    exact ⟨passes_of_perm hentries hfirst hsecond,
      passes_of_perm hentries.symm hsecond hfirst⟩
  case listing_eq =>
    intro after after' hafter hafter'
    exact (listing_eq_of_perm hentries hfirst hsecond hafter hafter').symm

/-! ### Two runs -/

/-- `Scout` of `Bee` inherits from `Drone` of `Bee` and that from `Worker` of
`Ant`. -/
def brood : List Entry :=
  [.declares ⟨"Bee", { name := "Scout", parent := some "Drone" }⟩,
    .declares ⟨"Bee", { name := "Drone", parent := some "Worker" }⟩,
    .declares ⟨"Ant", { name := "Worker" }⟩]

def forthRun : Run where
  entries := [.joins ant, .joins bee] ++ brood
  sorts := ["Bee", "Ant"]

/-- `Bee` joins before `Ant`, which it requires, and everything else is turned
round as well. -/
def backRun : Run where
  entries := [.joins bee, .joins ant] ++ brood.reverse
  sorts := ["Ant", "Bee"]

theorem forthRun_agrees_backRun :
    forthRun.entries.Perm backRun.entries ∧ forthRun.Proper ∧ backRun.Proper ∧
      forthRun.Agrees backRun ∧
      Ends (forthRun.whole {}) (fun _ after => after.parcelNamed? "Bee" = some ⟨1⟩ ∧
        after.listing "Bee" =
          some [⟨"Drone", some ("Ant", "Worker")⟩, ⟨"Scout", some ("Bee", "Drone")⟩])
        (fun _ _ => False) ∧
      Ends (backRun.whole {}) (fun _ after => after.parcelNamed? "Bee" = some ⟨0⟩)
        (fun _ _ => False) := by
  have hentries : forthRun.entries.Perm backRun.entries :=
    (List.Perm.swap _ _ _).append (List.reverse_perm _).symm
  have hforth : forthRun.Proper := ⟨by decide, by decide⟩
  have hback : backRun.Proper := ⟨by decide, by decide⟩
  exact ⟨hentries, hforth, hback, agrees_of_perm hentries hforth hback,
    by decide +kernel, by decide +kernel⟩

end Run

end Parcels.Model
