import Parcels.Proofs.Hierarchy.Propagation
import Parcels.Proofs.Model.SortedModels

/-!
# Marked files

Marks spread from stale files to files that declare subclasses of what they
declare.  No file is marked without such a way from a stale file, and where
files declare one class each no way is missed.
-/

namespace Parcels.Hierarchy

open Model

/-- A class is declared in the file at a place. -/
def DeclaredAt (hierarchy : Hierarchy) (index : Nat) (id : ClassId) : Prop :=
  ∃ file, hierarchy.files[index]? = some file ∧ id ∈ file.classes

/-- The file at `target` declares a class whose parent the file at `source`
declares. -/
def InheritsFrom (hierarchy : Hierarchy) (model : Model) (source target : Nat) :
    Prop :=
  ∃ child parent, model.parent? child = some parent ∧
    hierarchy.DeclaredAt source parent ∧ hierarchy.DeclaredAt target child

/-- Steps of inheritance lead from a stale file to the file at a place. -/
def ReachedFrom (hierarchy : Hierarchy) (model : Model) (stale : Nat → Prop)
    (index : Nat) : Prop :=
  ∃ source, stale source ∧
    Relation.ReflTransGen (hierarchy.InheritsFrom model) source index

/-- A hierarchy without its marks. -/
def unmarked (hierarchy : Hierarchy) : Hierarchy :=
  { hierarchy with
    files := hierarchy.files.map fun file => { file with modified := false } }

/-- What the files `marked` have to do with the files that are stale. -/
structure Spreads (hierarchy : Hierarchy) (model : Model) (stale : Nat → Prop)
    (marked : Hierarchy) : Prop where
  unmarked_eq : marked.unmarked = hierarchy.unmarked
  stale_marked : ∀ index, stale index → MarkedAt marked.files index
  descendants_marked : ∀ index descendant, hierarchy.DeclaredAt index descendant →
    ∀ source ancestor, stale source → hierarchy.DeclaredAt source ancestor →
      Relation.TransGen (fun child parent => model.parent? child = some parent)
        descendant ancestor → MarkedAt marked.files index
  reached_of_marked : ∀ index, MarkedAt marked.files index →
    hierarchy.ReachedFrom model stale index
  marked_iff_reached : (∀ file ∈ hierarchy.files, file.classes.length ≤ 1) →
    ∀ index, MarkedAt marked.files index ↔ hierarchy.ReachedFrom model stale index
  anyModified_iff : marked.anyModified = true ↔ ∃ index, stale index

variable {hierarchy : Hierarchy} {model : Model} {stale : Nat → Prop}

/-! ## Marks change nothing else -/

theorem unmarked_markClass (marks : Marks) (id : ClassId) :
    { hierarchy with files := (hierarchy.markClass model marks id).files }.unmarked =
      { hierarchy with files := marks.files }.unmarked := by
  unfold markClass
  cases hierarchy.fileIndices.lookup id with
  | none => rfl
  | some place =>
      dsimp only
      split
      · simp only [unmarked, Hierarchy.mk.injEq, and_true, true_and]
        apply Array.ext_getElem?
        intro index
        by_cases hsame : place = index
        · simp [Array.getElem?_modify, hsame, Function.comp_def]
        · simp [Array.getElem?_modify, hsame]
      · rfl

theorem unmarked_markModified (times : Timestamps) (force : Bool) :
    (hierarchy.markModified model times force).unmarked = hierarchy.unmarked := by
  have hpass : ∀ (ids : List ClassId) (marks : Marks),
      { hierarchy with
        files := (ids.foldl (hierarchy.markClass model) marks).files }.unmarked =
      { hierarchy with files := marks.files }.unmarked := by
    intro ids
    induction ids with
    | nil => exact fun _ => rfl
    | cons id ids ih => exact fun marks => (ih _).trans (unmarked_markClass marks id)
  apply (hpass model.orderedClasses _).trans
  simp [unmarked, Function.comp_def]

theorem anyModified_iff :
    hierarchy.anyModified = true ↔ ∃ index, MarkedAt hierarchy.files index := by
  simp only [anyModified, MarkedAt, Array.any_eq_true', Option.any_eq_true]
  constructor
  · rintro ⟨file, hfile, hmodified⟩
    obtain ⟨index, hindex⟩ := Array.mem_iff_getElem?.mp hfile
    exact ⟨index, file, hindex, hmodified⟩
  · rintro ⟨index, file, hindex, hmodified⟩
    exact ⟨file, Array.mem_of_getElem? hindex, hmodified⟩

/-! ## Affected classes and the files that declare them -/

/-- An affected ancestor affects all classes below it. -/
theorem Affected.descendant {Informs : ClassId → ClassId → Prop}
    {descendant ancestor : ClassId}
    (haffected : Affected hierarchy model stale Informs ancestor)
    (hpath : Relation.TransGen
      (fun child parent => model.parent? child = some parent) descendant ancestor) :
    Affected hierarchy model stale Informs descendant := by
  induction hpath using Relation.TransGen.head_induction_on with
  | single hlast => exact .subclass hlast haffected
  | head hfirst _ ih => exact .subclass hfirst ih

section Built

variable {built : Workspace} (hbuilt : Built built)

include hbuilt

theorem Built.place_iff {id : ClassId} {index : Nat} :
    built.hierarchy.fileIndices.lookup id = some index ↔
      built.hierarchy.DeclaredAt index id := by
  rw [hbuilt.steady.listed id index]
  simp [DeclaredAt]

/-- What affects a class leads to its file. -/
theorem Built.reachedFrom_of_affected {Informs : ClassId → ClassId → Prop}
    {id : ClassId} (haffected : Affected built.hierarchy built.model stale Informs id)
    {index : Nat} (hplace : built.hierarchy.fileIndices.lookup id = some index) :
    built.hierarchy.ReachedFrom built.model stale index := by
  induction haffected generalizing index with
  | stale hplace' hstale =>
      rw [hplace', Option.some.injEq] at hplace
      exact ⟨index, hplace ▸ hstale, .refl⟩
  | @subclass child parent hlinked _ ih =>
      have hparent := (hbuilt.sound.linked.known _ (mem_links_of_parent? hlinked)).2
      obtain ⟨before, hbefore⟩ := hbuilt.steady.placed parent hparent
      obtain ⟨source, hstale, hpath⟩ := ih hbefore
      exact ⟨source, hstale, hpath.tail ⟨child, parent, hlinked,
        hbuilt.place_iff.mp hbefore, hbuilt.place_iff.mp hplace⟩⟩
  | sameFile _ hother hplace' _ ih =>
      -- The file is the same, so the way that led to it leads here.
      rw [hplace', Option.some.injEq] at hplace
      exact ih (hplace ▸ hother)

/-- With one class to a file, every class of a file that is reached is
affected. -/
theorem Built.affected_of_path
    (hsingle : ∀ file ∈ built.hierarchy.files, file.classes.length ≤ 1)
    {Informs : ClassId → ClassId → Prop} {source index : Nat} (hstale : stale source)
    (hpath : Relation.ReflTransGen (built.hierarchy.InheritsFrom built.model)
      source index) :
    ∀ id, built.hierarchy.DeclaredAt index id →
      Affected built.hierarchy built.model stale Informs id := by
  induction hpath with
  | refl => exact fun id hid => .stale (hbuilt.place_iff.mpr hid) hstale
  | tail _ hstep ih =>
      obtain ⟨child, parent, hlinked, hparent, file, hfile, hchild⟩ := hstep
      rintro id ⟨_, hsame, hid⟩
      obtain rfl := Option.some.inj (hfile.symm.trans hsame)
      have hlength : file.classes.length = 1 :=
        le_antisymm (hsingle file (Array.mem_of_getElem? hfile))
          (List.length_pos_of_mem hid)
      obtain ⟨only, honly⟩ := List.length_eq_one_iff.mp hlength
      rw [honly, List.mem_singleton] at hid hchild
      rw [hid, ← hchild]
      exact .subclass hlinked (ih parent hparent)

end Built

/-- The pass over the classes spreads marks from the stale files. -/
theorem markModified_spreads {files : FileSystem} {dest : Path}
    {sourceDirs includeDirs : List Path} {built : Workspace}
    (hbuilds : Builds files dest sourceDirs includeDirs built)
    (hacyclic : ∀ id, ¬ Graph.OnCycle built.model.prereqParcels id)
    (times : Timestamps) (force : Bool) :
    Spreads built.hierarchy built.model (built.hierarchy.StaleAt times force)
      (built.hierarchy.markModified built.model times force) := by
  have hbuilt := hbuilds.built
  have hfirst := (hbuilt.sound.inOrder hacyclic hbuilt.sorted).parents_first
  have hmarked := hbuilt.markedAt_markModified hfirst times force
  have hstale : ∀ index, built.hierarchy.StaleAt times force index →
      MarkedAt (built.hierarchy.markModified built.model times force).files index :=
    fun index hindex => (hmarked index).mpr (.inl hindex)
  have hreached : ∀ index,
      MarkedAt (built.hierarchy.markModified built.model times force).files index →
        built.hierarchy.ReachedFrom built.model (built.hierarchy.StaleAt times force)
          index := by
    intro index hindex
    rcases (hmarked index).mp hindex with hstale | ⟨id, hplace, haffected⟩
    · exact ⟨index, hstale, .refl⟩
    · exact hbuilt.reachedFrom_of_affected haffected hplace
  constructor
  case unmarked_eq => exact unmarked_markModified times force
  case stale_marked => exact hstale
  case descendants_marked =>
    intro index descendant hdescendant source ancestor hsource hancestor hpath
    have haffected : AffectedForward built.hierarchy built.model
        (built.hierarchy.StaleAt times force) ancestor :=
      .stale (hbuilt.place_iff.mpr hancestor) hsource
    exact (hmarked index).mpr (.inr
      ⟨descendant, hbuilt.place_iff.mpr hdescendant, haffected.descendant hpath⟩)
  case reached_of_marked => exact hreached
  case marked_iff_reached =>
    refine fun hsingle index => ⟨hreached index, ?_⟩
    rintro ⟨source, hsource, hpath⟩
    -- A path without steps ends in a stale file, which may declare no class.
    cases Relation.ReflTransGen.cases_tail hpath with
    | inl hsame => exact hstale index (hsame ▸ hsource)
    | inr hstep =>
        obtain ⟨_, _, child, _, _, _, hchild⟩ := hstep
        exact (hmarked index).mpr (.inr ⟨child, hbuilt.place_iff.mpr hchild,
          hbuilt.affected_of_path hsingle hsource hpath child hchild⟩)
  case anyModified_iff =>
    rw [anyModified_iff]
    constructor
    · rintro ⟨index, hindex⟩
      obtain ⟨source, hsource, _⟩ := hreached index hindex
      exact ⟨source, hsource⟩
    · rintro ⟨index, hindex⟩
      exact ⟨index, hstale index hindex⟩

/-- The file of `Bee` is reached from the stale file of `Moth` through the file
that `Ant` and `Wolf` share, but is not marked. -/
theorem zoo_marks_spread :
    ∃ built, Builds zoo ⟨"autogen"⟩ [⟨"src"⟩] [] built ∧
      (∀ id, ¬ Graph.OnCycle built.model.prereqParcels id) ∧
      Spreads built.hierarchy built.model (built.hierarchy.StaleAt zooTimes false)
        (built.hierarchy.markModified built.model zooTimes false) ∧
      (built.hierarchy.markModified built.model zooTimes false).files.toList.map
        SourceFile.modified = [true, false, true] := by
  obtain ⟨_, built, hbuilds, hprereqs, _, _, hmarks⟩ := zoo_ends.exists_ok
  have hacyclic := not_onCycle_of_no_prereqs hprereqs
  exact ⟨built, hbuilds, hacyclic,
    markModified_spreads hbuilds hacyclic zooTimes false, hmarks⟩

end Parcels.Hierarchy
