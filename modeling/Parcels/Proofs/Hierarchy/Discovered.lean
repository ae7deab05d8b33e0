import Parcels.Hierarchy.Build
import Parcels.Proofs.FileSystem.Discovery

/-!
# What dirs hold

Source and include dirs are searched one after the other.  A header is known by
its path relative to its dir, a parcel by its name.  What an include dir holds
counts only if it is not known from before.
-/

namespace Parcels.Hierarchy

open Parcels.FileSystem
open RawText (dot)

/-! ## First comers -/

section Kept

variable {Item Key : Type} [DecidableEq Key] (key : Item → Key) (included : Item → Bool)

/-- The items that count after those with the keys `earlier`: all that are not
included, and of the included ones those with a new key. -/
def kept (earlier : List Key) : List Item → List Item
  | [] => []
  | item :: rest =>
      if included item = true ∧ key item ∈ earlier then kept (earlier ++ [key item]) rest
      else item :: kept (earlier ++ [key item]) rest

variable {key included} {earlier : List Key} {items more : List Item} {item : Item}

theorem kept_append (earlier : List Key) (items more : List Item) :
    kept key included earlier (items ++ more) =
      kept key included earlier items ++ kept key included (earlier ++ items.map key) more := by
  induction items generalizing earlier with
  | nil => simp [kept]
  | cons item items ih =>
      simp only [List.cons_append, kept, ih, List.map_cons]
      split <;> simp

/-- An included item whose key has been met is left out. -/
theorem kept_concat_of_mem (hincluded : included item = true) (hkey : key item ∈ items.map key) :
    kept key included [] (items ++ [item]) = kept key included [] items := by
  rw [kept_append, List.nil_append, kept, if_pos ⟨hincluded, hkey⟩]
  exact List.append_nil _

theorem kept_concat (hnew : included item = true → key item ∉ items.map key) :
    kept key included [] (items ++ [item]) = kept key included [] items ++ [item] := by
  rw [kept_append, List.nil_append, kept, if_neg (by tauto)]
  rfl

theorem mem_kept (hitem : item ∈ items) (hincluded : included item = false) :
    item ∈ kept key included earlier items := by
  induction items generalizing earlier with
  | nil => cases hitem
  | cons first items ih =>
      rw [kept]
      rcases List.mem_cons.mp hitem with rfl | hrest
      · simp [hincluded]
      · split
        · exact ih hrest
        · exact List.mem_cons_of_mem _ (ih hrest)

theorem mem_of_mem_kept (hitem : item ∈ kept key included earlier items) : item ∈ items := by
  induction items generalizing earlier with
  | nil => cases hitem
  | cons first items ih =>
      rw [kept] at hitem
      split at hitem
      · exact List.mem_cons_of_mem _ (ih hitem)
      · rcases List.mem_cons.mp hitem with rfl | hrest
        · exact List.mem_cons_self
        · exact List.mem_cons_of_mem _ (ih hrest)

/-- Every key has been met before, or an item that counts has it. -/
theorem mem_map_kept {name : Key} (hname : name ∈ items.map key) :
    name ∈ earlier ∨ name ∈ (kept key included earlier items).map key := by
  induction items generalizing earlier with
  | nil => cases hname
  | cons item items ih =>
      rw [kept]
      rcases List.mem_cons.mp hname with rfl | hrest
      · split
        · next hmet => exact .inl hmet.2
        · exact .inr List.mem_cons_self
      · have hmet : name ∈ earlier ++ [key item] ∨
            name ∈ (kept key included (earlier ++ [key item]) items).map key := ih hrest
        rw [List.mem_append, List.mem_singleton] at hmet
        split
        · next hitem => rcases hmet with (hold | rfl) | hcounts <;> tauto
        · rw [List.map_cons, List.mem_cons]
          tauto

theorem mem_map_kept_iff {name : Key} :
    name ∈ (kept key included [] items).map key ↔ name ∈ items.map key := by
  constructor
  · intro hname
    obtain ⟨item, hitem, rfl⟩ := List.mem_map.mp hname
    exact List.mem_map_of_mem (mem_of_mem_kept hitem)
  · intro hname
    exact (mem_map_kept hname).resolve_left List.not_mem_nil

/-- Among items with different keys, only what came before them matters. -/
theorem kept_eq_filter (hnodup : (items.map key).Nodup) (earlier : List Key) :
    kept key included earlier items =
      items.filter fun item => !included item || key item ∉ earlier := by
  induction items generalizing earlier with
  | nil => rfl
  | cons item items ih =>
      obtain ⟨hitem, hitems⟩ := List.nodup_cons.mp hnodup
      have hsame :
          (items.filter fun other => !included other || key other ∉ earlier ++ [key item]) =
          items.filter fun other => !included other || key other ∉ earlier := by
        refine List.filter_congr fun other hother => ?_
        have hne : key other ≠ key item := fun heq => hitem (heq ▸ List.mem_map_of_mem hother)
        simp [hne]
      rw [kept, ih hitems, hsame, List.filter_cons]
      by_cases hleft : included item = true ∧ key item ∈ earlier
      · simp [hleft]
      · rw [if_neg hleft, if_pos (by simpa [imp_iff_not_or] using hleft)]

end Kept

/-! ## Files in dirs -/

/-- A file that was discovered in a source or include dir. -/
structure Found where
  dir : Path
  included : Bool
  path : Path

namespace Found

/-- What leads from the dir to the file. -/
def relative (found : Found) : List Path.Component :=
  found.path.components.drop found.dir.components.length

/-- The relative path without its extension. -/
def part (found : Found) : Path :=
  partBelow found.dir found.path

/-- What a build notes down about the file. -/
def origin (found : Found) : Path × Path × Bool :=
  (found.path, found.part, found.included)

end Found

/-- What is noted down about a file of the hierarchy. -/
def originOf (file : SourceFile) : Path × Path × Bool :=
  (file.path, file.pathPart, file.included)

/-- The files with an extension that a dir holds, in order.  A dir comes with
whether it is an include dir. -/
def foundIn (files : FileSystem) (extension : RawText) (dir : Path × Bool) : List Found :=
  ((files.discover dir.1 extension).toOption.getD []).map fun path => ⟨dir.1, dir.2, path⟩

def foundBelow (files : FileSystem) (extension : RawText) (dirs : List (Path × Bool)) :
    List Found :=
  dirs.flatMap (foundIn files extension)

theorem foundBelow_concat (files : FileSystem) (extension : RawText)
    (dirs : List (Path × Bool)) (dir : Path × Bool) :
    foundBelow files extension (dirs ++ [dir]) =
      foundBelow files extension dirs ++ foundIn files extension dir := by
  simp [foundBelow]

/-- The headers of dirs that come after the dirs `earlier`: all in a source
dir, and in an include dir those whose relative path no earlier dir has. -/
def headersIn (files : FileSystem) (earlier : List (Path × Bool)) :
    List (Path × Bool) → List Found
  | [] => []
  | dir :: rest =>
      ((foundIn files "cfh" dir).filter fun found =>
        !found.included ||
          found.relative ∉ (foundBelow files "cfh" earlier).map Found.relative) ++
        headersIn files (earlier ++ [dir]) rest

variable {files : FileSystem} {extension : RawText} {dir : Path × Bool} {found other : Found}
variable {dirs : List (Path × Bool)}

theorem foundIn_eq {paths : List Path} (hdiscover : files.discover dir.1 extension = .ok paths) :
    foundIn files extension dir = paths.map fun path => ⟨dir.1, dir.2, path⟩ := by
  rw [foundIn, hdiscover]
  rfl

theorem mem_foundIn {paths : List Path} {path : Path}
    (hdiscover : files.discover dir.1 extension = .ok paths) (hpath : path ∈ paths) :
    ⟨dir.1, dir.2, path⟩ ∈ foundIn files extension dir := by
  rw [foundIn_eq hdiscover]
  exact List.mem_map_of_mem hpath

theorem of_mem_foundIn (hfound : found ∈ foundIn files extension dir) :
    found.dir = dir.1 ∧ found.included = dir.2 ∧
      ∃ paths, files.discover found.dir extension = .ok paths ∧ found.path ∈ paths := by
  cases hdiscover : files.discover dir.1 extension with
  | error failure => simp [foundIn, hdiscover, Except.toOption] at hfound
  | ok paths =>
      rw [foundIn_eq hdiscover] at hfound
      obtain ⟨path, hpath, rfl⟩ := List.mem_map.mp hfound
      exact ⟨rfl, rfl, paths, hdiscover, hpath⟩

theorem exists_dir (hfound : found ∈ foundBelow files extension dirs) :
    ∃ dir ∈ dirs, found ∈ foundIn files extension dir :=
  List.mem_flatMap.mp hfound

/-! ## Relative paths -/

theorem partBelow_eq {dir path : Path} {init : List RawText} {last : RawText}
    (hnames : ∀ name ∈ init ++ [last], Path.EntryName name)
    (hpath : path.components = dir.components ++ (init ++ [last]).map .name) :
    partBelow dir path = Path.ofNames (init ++ [Path.setExtension last []]) := by
  rw [partBelow, Path.relativeTo?_of_components hpath, Option.getD_some,
    Path.withExtension_ofNames hnames]

/-- What is left of the name of a header is a name: `..cfh` and `...cfh` are
hidden. -/
theorem entryName_stem {stem : RawText} (hname : Path.EntryName (stem ++ dot :: "cfh"))
    (hstem : stem ≠ []) (hvisible : isHidden (stem ++ dot :: "cfh") = false) :
    Path.EntryName stem := by
  refine ⟨hstem, ?_, ?_, fun hslash => hname.plain (List.mem_append_left _ hslash)⟩
  · rintro rfl
    exact absurd hvisible (by decide)
  · rintro rfl
    exact absurd hvisible (by decide)

/-- A header lies below its dir.  Its relative path and its part differ by the
extension only. -/
theorem Found.exists_stem (hfiles : files.WellFormed)
    (hfound : found ∈ foundIn files "cfh" dir) : ∃ init stem,
      found.path.components = found.dir.components ++ found.relative ∧
      found.relative = (init ++ [stem ++ dot :: "cfh"]).map .name ∧
      found.part.Named init stem := by
  obtain ⟨-, -, paths, hdiscover, hpath⟩ := of_mem_foundIn hfound
  obtain ⟨names, ⟨hnamed, hvisible, last, hlast, hextension⟩, hcomponents⟩ :=
    hfiles.exists_names hdiscover hpath
  obtain ⟨init, rfl⟩ := List.getLast?_eq_some_iff.mp hlast
  have hmem : last ∈ init ++ [last] := by simp
  have happend := Path.setExtension_append hextension
  obtain ⟨-, -, hnonempty⟩ := Path.exists_stem (hnamed last hmem).nonempty
  have hstem : Path.EntryName (Path.setExtension last []) := by
    refine entryName_stem ?_ hnonempty ?_
    · exact happend.symm ▸ hnamed last hmem
    · rw [happend]
      exact hvisible last hmem
  have hrelative : found.relative = (init ++ [last]).map .name := by
    rw [relative, hcomponents, List.drop_left]
  have hnames : (Path.ofNames (init ++ [last])).Named init last := ⟨rfl, hnamed⟩
  refine ⟨init, Path.setExtension last [], ?_, ?_, ?_, ?_⟩
  · rw [hrelative, hcomponents]
  · rw [happend, hrelative]
  · rw [part, partBelow_eq hnamed hcomponents]
  · exact hnames.replaced hstem

/-- Headers have the same relative path just when they have the same part. -/
theorem Found.part_eq_iff {otherDir : Path × Bool} (hfiles : files.WellFormed)
    (hfound : found ∈ foundIn files "cfh" dir) (hother : other ∈ foundIn files "cfh" otherDir) :
    found.part.components = other.part.components ↔ found.relative = other.relative := by
  obtain ⟨init, stem, -, hrelative, hpart⟩ := exists_stem hfiles hfound
  obtain ⟨init', stem', -, hrelative', hpart'⟩ := exists_stem hfiles hother
  rw [hrelative, hrelative', hpart.components_eq, hpart'.components_eq,
    Path.map_name_injective.eq_iff, Path.map_name_injective.eq_iff]
  simp

/-- A dir holds no two headers with the same relative path. -/
theorem nodup_relative (hfiles : files.WellFormed) (dir : Path × Bool) :
    ((foundIn files "cfh" dir).map Found.relative).Nodup := by
  cases hdiscover : files.discover dir.1 "cfh" with
  | error failure => simp [foundIn, hdiscover, Except.toOption]
  | ok paths =>
      have hdistinct :
          ((foundIn files "cfh" dir).map fun found => found.path.components).Nodup := by
        simpa [foundIn_eq hdiscover, Function.comp_def] using hfiles.nodup_discover hdiscover
      -- Below one dir the relative paths tell the paths apart.
      refine hdistinct.of_map.map_on fun found hfound other hother heq => ?_
      refine List.inj_on_of_nodup_map hdistinct hfound hother ?_
      obtain ⟨_, _, hcomponents, -⟩ := Found.exists_stem hfiles hfound
      obtain ⟨_, _, hcomponents', -⟩ := Found.exists_stem hfiles hother
      have hdir : found.dir = other.dir :=
        (of_mem_foundIn hfound).1.trans (of_mem_foundIn hother).1.symm
      rw [hcomponents, hcomponents', hdir, heq]

/-- Reading the dirs one by one or all their headers in a row comes to the same. -/
theorem headersIn_eq_kept (hfiles : files.WellFormed) (earlier dirs : List (Path × Bool)) :
    headersIn files earlier dirs =
      kept Found.relative Found.included
        ((foundBelow files "cfh" earlier).map Found.relative) (foundBelow files "cfh" dirs) := by
  induction dirs generalizing earlier with
  | nil => rfl
  | cons dir dirs ih =>
      have hdirs : foundBelow files "cfh" (dir :: dirs) =
          foundIn files "cfh" dir ++ foundBelow files "cfh" dirs := rfl
      rw [headersIn, ih, hdirs, kept_append, kept_eq_filter (nodup_relative hfiles dir),
        foundBelow_concat, List.map_append]
      congr 1
      exact List.filter_congr fun found _ => by simp

end Parcels.Hierarchy
