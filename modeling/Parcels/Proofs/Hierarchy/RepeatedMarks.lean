import Parcels.Proofs.Hierarchy.MarkedFiles

/-!
# Two runs over the same files

A mark that is set during the pass makes it mark more, never less, and the flags
that an earlier run has left are overwritten before the pass begins.  So of two
runs the one with more stale files leaves more marks, whatever was marked before,
and the stale files alone decide which.
-/

namespace Parcels.Hierarchy

open Model

variable {hierarchy left right : Hierarchy} {model : Model}

/-! ## Files without their marks -/

theorem staleAt_unmarked {times : Timestamps} {force : Bool} {index : Nat} :
    hierarchy.unmarked.StaleAt times force index ↔ hierarchy.StaleAt times force index := by
  simp only [StaleAt, unmarked, Array.getElem?_map, Option.any_map]
  rfl

/-- Whether a file is stale does not depend on flags. -/
theorem staleAt_congr (hsame : left.unmarked = right.unmarked) (times : Timestamps)
    (force : Bool) (index : Nat) :
    left.StaleAt times force index ↔ right.StaleAt times force index := by
  rw [← staleAt_unmarked, hsame, staleAt_unmarked]

theorem eq_of_modified_eq {file other : SourceFile}
    (hsame : { file with modified := false } = { other with modified := false })
    (hmodified : file.modified = other.modified) : file = other := by
  cases file
  cases other
  simp_all

theorem eq_of_files_eq (hsame : left.unmarked = right.unmarked)
    (hfiles : left.files = right.files) : left = right := by
  cases left
  cases right
  simp_all [unmarked]

/-- Hierarchies that differ in their marks at most and have the same marks are the
same. -/
theorem eq_of_markedAt_iff (hsame : left.unmarked = right.unmarked)
    (hmarks : ∀ index, MarkedAt left.files index ↔ MarkedAt right.files index) :
    left = right := by
  apply eq_of_files_eq hsame
  apply Array.ext_getElem?
  intro index
  have hfile := congrArg (fun hierarchy => hierarchy.files[index]?) hsame
  simp only [unmarked, Array.getElem?_map] at hfile
  have hmarked := Bool.eq_iff_iff.mpr (hmarks index)
  cases hleft : left.files[index]? with
  | none =>
      rw [hleft] at hfile
      exact (Option.map_eq_none_iff.mp hfile.symm).symm
  | some file =>
      rw [hleft, Option.map_some] at hfile
      obtain ⟨other, hright, hother⟩ := Option.map_eq_some_iff.mp hfile.symm
      rw [hleft, hright] at hmarked
      rw [hright, eq_of_modified_eq hother.symm hmarked]

/-! ## One class -/

/-- What one run has marked and found is among what another has. -/
structure Covered (marks more : Marks) : Prop where
  size_eq : marks.files.size = more.files.size
  marked : ∀ index, MarkedAt marks.files index → MarkedAt more.files index
  modified : marks.modified ⊆ more.modified

variable {marks more : Marks}

/-- What makes the pass mark the file of a class in one run does so in the other. -/
theorem Covered.finds (hcovered : Covered marks more) (id : ClassId) (place : Nat)
    (hfinds : ((marks.files[place]?).any SourceFile.modified ||
      (model.parent? id).any marks.modified.contains) = true) :
    ((more.files[place]?).any SourceFile.modified ||
      (model.parent? id).any more.modified.contains) = true := by
  rw [Bool.or_eq_true] at hfinds ⊢
  refine hfinds.imp (hcovered.marked place) fun hparent => ?_
  obtain ⟨parent, hlinked, hmodified⟩ := (Option.any_eq_true _ _).mp hparent
  have hmem : parent ∈ marks.modified := by simpa using hmodified
  exact (Option.any_eq_true _ _).mpr ⟨parent, hlinked, by simpa using hcovered.modified hmem⟩

theorem Covered.markClass (hcovered : Covered marks more)
    (hplaces : left.fileIndices = right.fileIndices) (id : ClassId) :
    Covered (left.markClass model marks id) (right.markClass model more id) := by
  unfold Hierarchy.markClass
  rw [hplaces]
  cases right.fileIndices.lookup id with
  | none => exact hcovered
  | some place =>
      dsimp only
      split
      case isTrue hfinds =>
        rw [if_pos (hcovered.finds id place hfinds)]
        refine ⟨by simpa using hcovered.size_eq, fun index => ?_,
          List.cons_subset_cons id hcovered.modified⟩
        rw [markedAt_modify, markedAt_modify, hcovered.size_eq]
        exact Or.imp_right (hcovered.marked index)
      case isFalse =>
        split
        case isTrue =>
          refine ⟨by simpa using hcovered.size_eq, fun index hindex => ?_,
            List.subset_cons_of_subset id hcovered.modified⟩
          exact (markedAt_modify index).mpr (.inr (hcovered.marked index hindex))
        case isFalse => exact hcovered

/-! ## The whole pass -/

theorem Covered.foldl (hcovered : Covered marks more)
    (hplaces : left.fileIndices = right.fileIndices) (ids : List ClassId) :
    Covered (ids.foldl (left.markClass model) marks)
      (ids.foldl (right.markClass model) more) := by
  induction ids generalizing marks more with
  | nil => exact hcovered
  | cons id ids ih => exact ih (hcovered.markClass hplaces id)

section Runs

variable {times times' : Timestamps} {force force' : Bool}

theorem Covered.start (hsame : left.unmarked = right.unmarked)
    (hstale : ∀ index, left.StaleAt times force index → right.StaleAt times' force' index) :
    Covered
      { files := left.files.map fun file =>
          { file with modified := left.isStale times force file } }
      { files := right.files.map fun file =>
          { file with modified := right.isStale times' force' file } } where
  size_eq := by
    have hfiles := congrArg (fun unmarked => unmarked.files.size) hsame
    simpa [unmarked] using hfiles
  marked := by
    intro index
    rw [markedAt_isStale, markedAt_isStale]
    exact hstale index
  modified := List.Subset.refl _

/-- The more files are stale, the more are marked. -/
theorem markedAt_markModified_mono (hsame : left.unmarked = right.unmarked)
    (hstale : ∀ index, left.StaleAt times force index → right.StaleAt times' force' index)
    (index : Nat) (hmarked : MarkedAt (left.markModified model times force).files index) :
    MarkedAt (right.markModified model times' force').files index :=
  ((Covered.start hsame hstale).foldl (congrArg Hierarchy.fileIndices hsame)
    model.orderedClasses).marked index hmarked

/-- Marks depend on which files are stale and on no marks before. -/
theorem markModified_congr (hsame : left.unmarked = right.unmarked)
    (hstale : ∀ index, left.StaleAt times force index ↔ right.StaleAt times' force' index) :
    left.markModified model times force = right.markModified model times' force' := by
  apply eq_of_markedAt_iff
  · rw [unmarked_markModified, unmarked_markModified, hsame]
  · exact fun index =>
      ⟨markedAt_markModified_mono hsame (fun place => (hstale place).mp) index,
        markedAt_markModified_mono hsame.symm (fun place => (hstale place).mpr) index⟩

/-- Two runs over files that differ in their flags at most: the one with more
stale files marks more, and the flags play no part. -/
theorem markModified_mono (hsame : left.unmarked = right.unmarked) (model : Model)
    (times times' : Timestamps) (force force' : Bool) :
    ((∀ index, left.StaleAt times force index → right.StaleAt times' force' index) →
      (∀ index, MarkedAt (left.markModified model times force).files index →
        MarkedAt (right.markModified model times' force').files index) ∧
      ((left.markModified model times force).anyModified = true →
        (right.markModified model times' force').anyModified = true)) ∧
    ((∀ index, left.StaleAt times force index ↔ right.StaleAt times' force' index) →
      left.markModified model times force = right.markModified model times' force') ∧
    left.markModified model times force = right.markModified model times force := by
  refine ⟨fun hstale => ?_, markModified_congr hsame,
    markModified_congr hsame (staleAt_congr hsame times force)⟩
  have hmono : ∀ index, MarkedAt (left.markModified model times force).files index →
      MarkedAt (right.markModified model times' force').files index :=
    markedAt_markModified_mono hsame hstale
  refine ⟨hmono, fun hany => ?_⟩
  obtain ⟨index, hmarked⟩ := anyModified_iff.mp hany
  exact anyModified_iff.mpr ⟨index, hmono index hmarked⟩

end Runs

/-- After a run that is forced, one that is not marks what it would have marked
before, and a forced one marks no less than that. -/
theorem zoo_marks_again :
    ∃ built, Builds zoo ⟨"autogen"⟩ [⟨"src"⟩] [] built ∧ ∃ forced,
      forced = built.hierarchy.markModified built.model zooTimes true ∧
      built.hierarchy.unmarked = forced.unmarked ∧
      (∀ index, built.hierarchy.StaleAt zooTimes false index →
        forced.StaleAt zooTimes true index) ∧
      (∀ index, MarkedAt (built.hierarchy.markModified built.model zooTimes false).files index →
        MarkedAt (forced.markModified built.model zooTimes true).files index) ∧
      (forced.markModified built.model zooTimes false).files.toList.map
        SourceFile.modified = [true, false, true] := by
  obtain ⟨_, built, hbuilds, _, _, _, hmarks⟩ := zoo_ends.exists_ok
  refine ⟨built, hbuilds, _, rfl, ?_⟩
  have hsame := (unmarked_markModified zooTimes true :
    (built.hierarchy.markModified built.model zooTimes true).unmarked = _).symm
  have hstale : ∀ index, built.hierarchy.StaleAt zooTimes false index →
      (built.hierarchy.markModified built.model zooTimes true).StaleAt zooTimes true index := by
    intro index hindex
    obtain ⟨file, hfile, -⟩ := (Option.any_eq_true _ _).mp
      ((staleAt_congr hsame zooTimes false index).mp hindex)
    exact (Option.any_eq_true _ _).mpr ⟨file, hfile, rfl⟩
  have hruns := markModified_mono hsame built.model zooTimes zooTimes false true
  refine ⟨hsame, hstale, (hruns.1 hstale).1, ?_⟩
  rw [← hruns.2.2]
  exact hmarks

end Parcels.Hierarchy
