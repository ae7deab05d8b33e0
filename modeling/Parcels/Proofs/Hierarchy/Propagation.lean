import Parcels.Hierarchy.Staleness
import Parcels.Proofs.Hierarchy.Built
import Parcels.Proofs.Model.OrderedClasses

/-!
# Propagation of marks

The pass over the classes finds a class modified when its file is marked by
then or its parent was found before.  A file that is marked late is marked for
the classes behind in the order only, so what the pass marks is closed under
subclasses just when looking back from class to class within a file would find
no further file.
-/

namespace Parcels

namespace Hierarchy

open Model

/-- The file at a place is marked. -/
def MarkedAt (files : Array SourceFile) (index : Nat) : Prop :=
  (files[index]?).any SourceFile.modified

/-- The file at a place is stale on its own account. -/
def StaleAt (hierarchy : Hierarchy) (times : Timestamps) (force : Bool)
    (index : Nat) : Prop :=
  (hierarchy.files[index]?).any (hierarchy.isStale times force)

/-- The file that declares a class is marked. -/
def FileMarked (hierarchy : Hierarchy) (id : ClassId) : Prop :=
  ∃ file, hierarchy.fileOf? id = some file ∧ file.modified

/-- Where the parent's file is marked, so is the file of the child. -/
def SubclassClosed (hierarchy : Hierarchy) (model : Model) : Prop :=
  ∀ child parent, model.parent? child = some parent →
    hierarchy.FileMarked parent → hierarchy.FileMarked child

/-- Some classes are affected because their files are stale.  The subclasses of
an affected class are affected, and so are the classes in its file that it
informs. -/
inductive Affected (hierarchy : Hierarchy) (model : Model) (stale : Nat → Prop)
    (Informs : ClassId → ClassId → Prop) : ClassId → Prop
  | stale {id : ClassId} {index : Nat}
      (place : hierarchy.fileIndices.lookup id = some index)
      (isStale : stale index) : Affected hierarchy model stale Informs id
  | subclass {child parent : ClassId} (linked : model.parent? child = some parent)
      (affected : Affected hierarchy model stale Informs parent) :
      Affected hierarchy model stale Informs child
  | sameFile {id other : ClassId} {index : Nat} (informs : Informs id other)
      (place : hierarchy.fileIndices.lookup id = some index)
      (place' : hierarchy.fileIndices.lookup other = some index)
      (affected : Affected hierarchy model stale Informs id) :
      Affected hierarchy model stale Informs other

/-- Affected when classes inform those behind them in the order of classes. -/
abbrev AffectedForward (hierarchy : Hierarchy) (model : Model)
    (stale : Nat → Prop) : ClassId → Prop :=
  Affected hierarchy model stale (Precedes model.orderedClasses)

/-- Affected when classes inform all others in their file. -/
abbrev AffectedAnyway (hierarchy : Hierarchy) (model : Model)
    (stale : Nat → Prop) : ClassId → Prop :=
  Affected hierarchy model stale fun _ _ => True

variable {hierarchy : Hierarchy} {model : Model} {stale : Nat → Prop}

theorem Affected.mono {Informs Informs' : ClassId → ClassId → Prop}
    (hmore : ∀ id other, Informs id other → Informs' id other) {id : ClassId}
    (haffected : Affected hierarchy model stale Informs id) :
    Affected hierarchy model stale Informs' id := by
  induction haffected with
  | stale hplace hstale => exact .stale hplace hstale
  | subclass hlinked _ ih => exact .subclass hlinked ih
  | sameFile hinforms hplace hplace' _ ih =>
      exact .sameFile (hmore _ _ hinforms) hplace hplace' ih

/-- A file is stale or declares one of the classes `found`. -/
def Reported (hierarchy : Hierarchy) (stale : Nat → Prop)
    (found : ClassId → Prop) (index : Nat) : Prop :=
  stale index ∨ ∃ id, hierarchy.fileIndices.lookup id = some index ∧ found id

/-! ## One class -/

/-- What the pass has established when the classes `done` are behind it. -/
structure Progress (hierarchy : Hierarchy) (model : Model) (stale : Nat → Prop)
    (done : List ClassId) (marks : Marks) : Prop where
  modified_iff : ∀ id, id ∈ marks.modified ↔
    id ∈ done ∧ AffectedForward hierarchy model stale id
  marked_iff : ∀ index, MarkedAt marks.files index ↔
    Reported hierarchy stale
      (fun id => id ∈ done ∧ AffectedForward hierarchy model stale id) index
  size_eq : marks.files.size = hierarchy.files.size

theorem markedAt_modify {files : Array SourceFile} {place : Nat} (index : Nat) :
    MarkedAt (files.modify place fun file => { file with modified := true }) index ↔
      index = place ∧ place < files.size ∨ MarkedAt files index := by
  unfold MarkedAt
  rw [Array.getElem?_modify]
  by_cases hsame : place = index
  · subst hsame
    cases hfile : files[place]? with
    | none => simp [Array.getElem?_eq_none_iff.mp hfile]
    | some file =>
        obtain ⟨hknown, -⟩ := Array.getElem?_eq_some_iff.mp hfile
        simp [hknown]
  · simp [hsame, Ne.symm hsame]

/-- The pass finds a class modified just when it is affected, since what
affects it is behind the pass by then. -/
theorem Progress.modified_iff_next {done rest : List ClassId} {marks : Marks}
    {id : ClassId} {place : Nat}
    (hprogress : Progress hierarchy model stale done marks)
    (hnodup : model.orderedClasses.Nodup)
    (horder : model.orderedClasses = done ++ id :: rest)
    (hfirst : model.ParentsFirst)
    (hplace : hierarchy.fileIndices.lookup id = some place) :
    (MarkedAt marks.files place ∨
        (model.parent? id).any marks.modified.contains) ↔
      AffectedForward hierarchy model stale id := by
  have hbehind : ∀ other, Precedes model.orderedClasses other id ↔
      other ∈ done := by
    intro other
    rw [horder] at hnodup ⊢
    exact Precedes.iff_mem_of_split hnodup
  rw [hprogress.marked_iff]
  constructor
  · rintro ((hstale | ⟨other, hother, hdone, haffected⟩) | hparent)
    · exact .stale hplace hstale
    · exact .sameFile ((hbehind other).mpr hdone) hother hplace haffected
    · obtain ⟨parent, hlinked, hmodified⟩ := (Option.any_eq_true _ _).mp hparent
      have hmem : parent ∈ marks.modified := by simpa using hmodified
      exact .subclass hlinked ((hprogress.modified_iff parent).mp hmem).2
  · intro haffected
    cases haffected with
    | stale hplace' hstale =>
        rw [hplace', Option.some.injEq] at hplace
        exact .inl (.inl (hplace ▸ hstale))
    | @subclass _ parent hlinked haffected =>
        have hdone := (hbehind parent).mp (hfirst id parent hlinked)
        refine .inr ((Option.any_eq_true _ _).mpr ⟨parent, hlinked, ?_⟩)
        simpa using (hprogress.modified_iff parent).mpr ⟨hdone, haffected⟩
    | @sameFile other _ index hinforms hother hplace' haffected =>
        rw [hplace', Option.some.injEq] at hplace
        exact .inl (.inr ⟨other, hplace ▸ hother, (hbehind other).mp hinforms,
          haffected⟩)

theorem mem_snoc_and_iff {done : List ClassId} {id other : ClassId}
    {found : ClassId → Prop} :
    other ∈ done ++ [id] ∧ found other ↔
      other = id ∧ found id ∨ other ∈ done ∧ found other := by
  rw [List.mem_append, List.mem_singleton]
  constructor
  · rintro ⟨hdone | rfl, hfound⟩
    · exact .inr ⟨hdone, hfound⟩
    · exact .inl ⟨rfl, hfound⟩
  · rintro (⟨rfl, hfound⟩ | ⟨hdone, hfound⟩)
    · exact ⟨.inr rfl, hfound⟩
    · exact ⟨.inl hdone, hfound⟩

/-- One more class adds the place of its file, if it is found. -/
theorem reported_snoc_iff {done : List ClassId} {id : ClassId}
    {found : ClassId → Prop} {place : Nat}
    (hplace : hierarchy.fileIndices.lookup id = some place) (index : Nat) :
    Reported hierarchy stale (fun other => other ∈ done ++ [id] ∧ found other) index ↔
      index = place ∧ found id ∨
        Reported hierarchy stale (fun other => other ∈ done ∧ found other) index := by
  simp only [Reported, mem_snoc_and_iff]
  constructor
  · rintro (hstale | ⟨other, hother, ⟨rfl, hfound⟩ | hdone⟩)
    · exact .inr (.inl hstale)
    · rw [hother, Option.some.injEq] at hplace
      exact .inl ⟨hplace, hfound⟩
    · exact .inr (.inr ⟨other, hother, hdone⟩)
  · rintro (⟨rfl, hfound⟩ | hstale | ⟨other, hother, hdone⟩)
    · exact .inr ⟨id, hplace, .inl ⟨rfl, hfound⟩⟩
    · exact .inl hstale
    · exact .inr ⟨other, hother, .inr hdone⟩

theorem Progress.markClass {done rest : List ClassId} {marks : Marks}
    {id : ClassId} {place : Nat}
    (hprogress : Progress hierarchy model stale done marks)
    (hnodup : model.orderedClasses.Nodup)
    (horder : model.orderedClasses = done ++ id :: rest)
    (hfirst : model.ParentsFirst)
    (hplace : hierarchy.fileIndices.lookup id = some place)
    (hknown : place < hierarchy.files.size) :
    Progress hierarchy model stale (done ++ [id])
      (Hierarchy.markClass hierarchy model marks id) := by
  have hnext := hprogress.modified_iff_next hnodup horder hfirst hplace
  unfold Hierarchy.markClass
  simp only [hplace]
  split
  · next hmodified =>
    have haffected := hnext.mp (by simpa [MarkedAt] using hmodified)
    refine ⟨fun other => ?_, fun index => ?_, ?_⟩
    · rw [List.mem_cons, hprogress.modified_iff, mem_snoc_and_iff]
      simp [haffected]
    · rw [reported_snoc_iff hplace, markedAt_modify, hprogress.marked_iff,
        hprogress.size_eq]
      simp [haffected, hknown]
    · simpa using hprogress.size_eq
  · next hunmodified =>
    have hnot : ¬ AffectedForward hierarchy model stale id := fun haffected =>
      hunmodified (by simpa [MarkedAt] using hnext.mpr haffected)
    refine ⟨fun other => ?_, fun index => ?_, hprogress.size_eq⟩
    · rw [hprogress.modified_iff, mem_snoc_and_iff]
      simp [hnot]
    · rw [reported_snoc_iff hplace, hprogress.marked_iff]
      simp [hnot]

/-! ## The whole pass -/

theorem Progress.foldl {done rest : List ClassId} {marks : Marks}
    (hprogress : Progress hierarchy model stale done marks)
    (hnodup : model.orderedClasses.Nodup)
    (horder : model.orderedClasses = done ++ rest)
    (hfirst : model.ParentsFirst)
    (hplaced : ∀ id ∈ rest, ∃ place < hierarchy.files.size,
      hierarchy.fileIndices.lookup id = some place) :
    Progress hierarchy model stale model.orderedClasses
      (rest.foldl (Hierarchy.markClass hierarchy model) marks) := by
  induction rest generalizing done marks with
  | nil =>
      rw [List.append_nil] at horder
      rw [horder]
      exact hprogress
  | cons id rest ih =>
      obtain ⟨place, hknown, hplace⟩ := hplaced id List.mem_cons_self
      refine ih (hprogress.markClass hnodup horder hfirst hplace hknown) ?_ ?_
      · rw [horder, List.append_assoc, List.singleton_append]
      · exact fun other hother => hplaced other (List.mem_cons_of_mem _ hother)

/-- Before the first class, the stale files are marked. -/
theorem markedAt_isStale (times : Timestamps) (force : Bool) (index : Nat) :
    MarkedAt (hierarchy.files.map fun file =>
        { file with modified := hierarchy.isStale times force file }) index ↔
      hierarchy.StaleAt times force index := by
  simp only [MarkedAt, StaleAt, Array.getElem?_map]
  cases hierarchy.files[index]? <;> simp

theorem Progress.start (times : Timestamps) (force : Bool) :
    Progress hierarchy model (hierarchy.StaleAt times force) []
      { files := hierarchy.files.map fun file =>
          { file with modified := hierarchy.isStale times force file } } where
  modified_iff := by simp
  marked_iff := by
    intro index
    rw [markedAt_isStale]
    simp [Reported]
  size_eq := by simp

theorem fileMarked_iff {id : ClassId} :
    hierarchy.FileMarked id ↔ ∃ index,
      hierarchy.fileIndices.lookup id = some index ∧ MarkedAt hierarchy.files index := by
  simp only [FileMarked, fileOf?, MarkedAt, Option.any_eq_true]
  constructor
  · rintro ⟨file, hfile, hmodified⟩
    obtain ⟨index, hplace, hindex⟩ := Option.bind_eq_some_iff.mp hfile
    exact ⟨index, hplace, file, hindex, hmodified⟩
  · rintro ⟨index, hplace, file, hindex, hmodified⟩
    exact ⟨file, Option.bind_eq_some_iff.mpr ⟨index, hplace, hindex⟩, hmodified⟩

section Built

variable {built : Workspace} (hbuilt : Built built)
  (hfirst : built.model.ParentsFirst) (times : Timestamps) (force : Bool)

include hbuilt hfirst

/-- The files that the pass marks. -/
theorem Built.markedAt_markModified (index : Nat) :
    MarkedAt (built.hierarchy.markModified built.model times force).files index ↔
      Reported built.hierarchy (built.hierarchy.StaleAt times force)
        (AffectedForward built.hierarchy built.model
          (built.hierarchy.StaleAt times force)) index := by
  have hsound := hbuilt.sound
  have hplaced : ∀ id ∈ built.model.orderedClasses,
      ∃ place < built.hierarchy.files.size,
        built.hierarchy.fileIndices.lookup id = some place := by
    intro id hid
    obtain ⟨place, hplace⟩ := hbuilt.steady.placed id
      ((mem_orderedClasses hsound.partitioned).mp hid)
    exact ⟨place, (hbuilt.steady.known id place hplace).2, hplace⟩
  have hend := (Progress.start times force).foldl
    (nodup_orderedClasses hsound.partitioned) rfl hfirst hplaced
  refine (hend.marked_iff index).trans (or_congr_right (exists_congr fun id =>
    and_congr_right fun hplace => and_iff_right ?_))
  exact (mem_orderedClasses hsound.partitioned).mpr
    (hbuilt.steady.known id index hplace).1

theorem Built.fileMarked_markModified (id : ClassId) :
    (built.hierarchy.markModified built.model times force).FileMarked id ↔
      ∃ index, built.hierarchy.fileIndices.lookup id = some index ∧
        Reported built.hierarchy (built.hierarchy.StaleAt times force)
          (AffectedForward built.hierarchy built.model
            (built.hierarchy.StaleAt times force)) index := by
  rw [fileMarked_iff]
  exact exists_congr fun index => and_congr_right fun _ =>
    hbuilt.markedAt_markModified hfirst times force index

/-- Closed under subclasses, the marks reach all that is affected. -/
theorem Built.fileMarked_of_affected
    (hclosed : (built.hierarchy.markModified built.model times force).SubclassClosed
      built.model) {id : ClassId}
    (haffected : AffectedAnyway built.hierarchy built.model
      (built.hierarchy.StaleAt times force) id) :
    (built.hierarchy.markModified built.model times force).FileMarked id := by
  have hmarked := hbuilt.fileMarked_markModified hfirst times force
  induction haffected with
  | stale hplace hstale => exact (hmarked _).mpr ⟨_, hplace, .inl hstale⟩
  | subclass hlinked _ ih => exact hclosed _ _ hlinked ih
  | sameFile _ hplace hplace' _ ih =>
      obtain ⟨index, hindex, hreported⟩ := (hmarked _).mp ih
      rw [hplace, Option.some.injEq] at hindex
      exact (hmarked _).mpr ⟨_, hplace', hindex ▸ hreported⟩

/-- Only files of affected classes are marked. -/
theorem Built.affected_of_fileMarked {id : ClassId}
    (hmarked : (built.hierarchy.markModified built.model times force).FileMarked id) :
    AffectedAnyway built.hierarchy built.model
      (built.hierarchy.StaleAt times force) id := by
  obtain ⟨index, hplace, hstale | ⟨other, hother, haffected⟩⟩ :=
    (hbuilt.fileMarked_markModified hfirst times force id).mp hmarked
  · exact .stale hplace hstale
  · exact .sameFile trivial hother hplace
      (haffected.mono fun _ _ _ => trivial)

end Built

/-- The marks are a fixed point just when looking back within files reaches no
file that the pass does not report. -/
theorem markModified_subclassClosed_iff {files : FileSystem} {dest : Path}
    {sourceDirs includeDirs : List Path} {built : Workspace}
    (hbuilds : Builds files dest sourceDirs includeDirs built)
    (hacyclic : ∀ id, ¬ Graph.OnCycle built.model.prereqParcels id)
    (times : Timestamps) (force : Bool) :
    (built.hierarchy.markModified built.model times force).SubclassClosed
        built.model ↔
      ∀ id, AffectedAnyway built.hierarchy built.model
          (built.hierarchy.StaleAt times force) id →
        ∃ index, built.hierarchy.fileIndices.lookup id = some index ∧
          Reported built.hierarchy (built.hierarchy.StaleAt times force)
            (AffectedForward built.hierarchy built.model
              (built.hierarchy.StaleAt times force)) index := by
  have hbuilt := hbuilds.built
  have hsound := hbuilt.sound
  have hfirst : built.model.ParentsFirst :=
    (parentsFirst_iff hsound.partitioned hsound.linked hbuilt.sorted).mpr
      fun child _ _ hcycle => absurd hcycle (hacyclic _)
  have hmarked := hbuilt.fileMarked_markModified hfirst times force
  constructor
  · intro hclosed id haffected
    exact (hmarked id).mp
      (hbuilt.fileMarked_of_affected hfirst times force hclosed haffected)
  · intro hreported child parent hlinked hparent
    have haffected := hbuilt.affected_of_fileMarked hfirst times force hparent
    exact (hmarked child).mpr (hreported child (.subclass hlinked haffected))

/-! ## A file that is marked late -/

theorem not_onCycle_of_no_prereqs
    (hprereqs : model.parcelIds.flatMap model.prereqParcels = []) (id : ParcelId) :
    ¬ Graph.OnCycle model.prereqParcels id := by
  intro hcycle
  obtain ⟨next, hedge, _⟩ := Relation.TransGen.head'_iff.mp hcycle
  obtain ⟨prereq, hprereq, _⟩ := mem_prereqParcels.mp hedge
  have hnone := List.flatMap_eq_nil_iff.mp hprereqs id
    (mem_parcelIds_of_mem_prereqs hprereq)
  change next ∈ model.prereqParcels id at hedge
  rw [hnone] at hedge
  cases hedge

theorem markedAt_iff {files : Array SourceFile} {index : Nat} :
    MarkedAt files index ↔
      (files.toList.map SourceFile.modified)[index]? = some true := by
  rw [MarkedAt, List.getElem?_map, Array.getElem?_toList]
  cases files[index]? <;> simp

/-- `Ant` and `Wolf` share a file; `Bee` inherits from `Ant` and `Wolf` from
`Moth`. -/
def zoo : FileSystem where
  root := .directory [("src", .directory
    [("Zoo.cfp", .file
        (.text "\x7b\"name\": \"Zoo\", \"version\": \"v1\"\x7d") 0),
      ("Ant.cfh", .file (.text
        "parcel Zoo; class Ant \x7b\x7d class Wolf inherits Moth \x7b\x7d") 0),
      ("Bee.cfh", .file
        (.text "parcel Zoo; class Bee inherits Ant \x7b\x7d") 0),
      ("Moth.cfh", .file (.text "parcel Zoo; class Moth \x7b\x7d") 0)] 0)] 0

/-- Only the header generated for `Moth` is missing. -/
def zooTimes : Timestamps := fun path =>
  if path.text = "autogen/include/Moth.h" then none else some 0

theorem zoo_ends :
    Ends (build zoo ⟨newHierarchy ⟨"autogen"⟩ [⟨"src"⟩] [], {}⟩)
      (fun _ built =>
        built.model.parcelIds.flatMap built.model.prereqParcels = [] ∧
        built.model.links = [⟨⟨1⟩, ⟨3⟩⟩, ⟨⟨2⟩, ⟨0⟩⟩] ∧
        built.hierarchy.fileIndices = [(⟨3⟩, 2), (⟨2⟩, 1), (⟨1⟩, 0), (⟨0⟩, 0)] ∧
        (built.hierarchy.markModified built.model zooTimes false).files.toList.map
          SourceFile.modified = [true, false, true]) (fun _ _ => False) := by
  decide +kernel

/-- `Ant` is marked for the sake of `Wolf` when `Bee` is already behind. -/
theorem zoo_not_closed {built : Workspace}
    (hlinks : built.model.links = [⟨⟨1⟩, ⟨3⟩⟩, ⟨⟨2⟩, ⟨0⟩⟩])
    (hplaces : built.hierarchy.fileIndices =
      [(⟨3⟩, 2), (⟨2⟩, 1), (⟨1⟩, 0), (⟨0⟩, 0)])
    (hmarks : (built.hierarchy.markModified built.model zooTimes
      false).files.toList.map SourceFile.modified = [true, false, true]) :
    ¬ (built.hierarchy.markModified built.model zooTimes false).SubclassClosed
      built.model := by
  intro hclosed
  have hmarked : ∀ id, FileMarked
      (built.hierarchy.markModified built.model zooTimes false) id ↔ ∃ index,
        [((⟨3⟩ : ClassId), 2), (⟨2⟩, 1), (⟨1⟩, 0), (⟨0⟩, 0)].lookup id = some index ∧
          [true, false, true][index]? = some true := by
    intro id
    rw [fileMarked_iff, ← hplaces, ← hmarks]
    exact exists_congr fun index => and_congr_right fun _ => markedAt_iff
  have hbee := hclosed ⟨2⟩ ⟨0⟩ (by simp [parent?, hlinks])
    ((hmarked ⟨0⟩).mpr ⟨0, rfl, rfl⟩)
  obtain ⟨index, hindex, hmark⟩ := (hmarked ⟨2⟩).mp hbee
  obtain rfl : 1 = index := Option.some.inj hindex
  cases hmark

theorem zoo_marks_not_closed :
    ∃ built, Builds zoo ⟨"autogen"⟩ [⟨"src"⟩] [] built ∧
      (∀ id, ¬ Graph.OnCycle built.model.prereqParcels id) ∧
      ¬ ∀ id, AffectedAnyway built.hierarchy built.model
          (built.hierarchy.StaleAt zooTimes false) id →
        ∃ index, built.hierarchy.fileIndices.lookup id = some index ∧
          Reported built.hierarchy (built.hierarchy.StaleAt zooTimes false)
            (AffectedForward built.hierarchy built.model
              (built.hierarchy.StaleAt zooTimes false)) index := by
  obtain ⟨_, built, hbuilds, hprereqs, hlinks, hplaces, hmarks⟩ := zoo_ends.exists_ok
  have hacyclic := not_onCycle_of_no_prereqs hprereqs
  refine ⟨built, hbuilds, hacyclic, fun hreported => ?_⟩
  exact zoo_not_closed hlinks hplaces hmarks
    ((markModified_subclassClosed_iff hbuilds hacyclic zooTimes false).mpr hreported)

/-- A subclass of a class in a marked file may be left out. -/
theorem markModified_not_subclassClosed :
    ¬ ∀ (files : FileSystem) (dest : Path) (sourceDirs includeDirs : List Path)
        (built : Workspace), Builds files dest sourceDirs includeDirs built →
          (∀ id, ¬ Graph.OnCycle built.model.prereqParcels id) →
            ∀ (times : Timestamps) (force : Bool),
              (built.hierarchy.markModified built.model times force).SubclassClosed
                built.model := by
  intro hclosed
  obtain ⟨_, built, hbuilds, hprereqs, hlinks, hplaces, hmarks⟩ := zoo_ends.exists_ok
  exact zoo_not_closed hlinks hplaces hmarks (hclosed _ _ _ _ built hbuilds
    (not_onCycle_of_no_prereqs hprereqs) zooTimes false)

end Hierarchy

end Parcels
