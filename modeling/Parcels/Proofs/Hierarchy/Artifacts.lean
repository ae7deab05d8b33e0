import Parcels.Proofs.Hierarchy.Collected

/-!
# Generated files

The files generated from a header are called after its path part with an
extension in place of what follows the last dot.  The part is a path without
extension only if its last name has no dot.  Headers such as `Ant.cfh` and
`Ant.b.cfh`, whose parts differ after a dot alone, have their artifacts in
common.
-/

namespace Parcels

open RawText (dot)

/-! ## Extensions of paths of names -/

namespace Path.Named

variable {path base : Path} {init : List RawText} {last extension : RawText}
variable (hnamed : path.Named init last)

include hnamed

theorem append_eq : (⟨path.raw ++ dot :: extension⟩ : Path) =
    ofNames (init ++ [last ++ dot :: extension]) := by
  rw [hnamed.eq_ofNames, ofNames_append]

theorem components_append (hextension : EntryName extension) :
    (base.joinPath ⟨path.raw ++ dot :: extension⟩).components =
      base.components ++ (init ++ [last ++ dot :: extension]).map .name := by
  have hlast := (hnamed.names last (by simp)).append hextension
  rw [hnamed.append_eq, components_joinPath (hnamed.replaced hlast) (by simp)]

theorem components_withExtension (hextension : EntryName extension) :
    (base.joinPath (path.withExtension extension)).components =
      base.components ++ (init ++ [setExtension last [] ++ dot :: extension]).map .name := by
  have hlast := (hnamed.names last (by simp)).setExtension hextension
  rw [hnamed.withExtension_eq, components_joinPath (hnamed.replaced hlast) (by simp),
    setExtension_eq hextension.nonempty]

/-- To replace the extension comes to adding one if there is no dot. -/
theorem withExtension_eq_append (hextension : EntryName extension) (hdotless : dot ∉ last.tail) :
    path.withExtension extension = ⟨path.raw ++ dot :: extension⟩ := by
  rw [hnamed.append_eq, hnamed.withExtension_eq, setExtension_eq hextension.nonempty,
    setExtension_eq_self_iff_dotless.mpr hdotless]

/-- With a dot it comes to something else, however paths are spelled. -/
theorem dotless_of_beq (hextension : EntryName extension)
    (hsame : (base.joinPath (path.withExtension extension) ==
      base.joinPath ⟨path.raw ++ dot :: extension⟩) = true) : dot ∉ last.tail := by
  rw [beq_iff, hnamed.components_withExtension hextension, hnamed.components_append hextension,
    List.append_cancel_left_eq, map_name_injective.eq_iff, List.append_cancel_left_eq,
    List.singleton_inj, List.append_cancel_right_eq] at hsame
  exact setExtension_eq_self_iff_dotless.mp hsame

/-- Two paths with the same extension put in are the same when they have the
same directories and stems. -/
theorem withExtension_beq_iff {other : Path} {init' : List RawText} {last' : RawText}
    (hother : other.Named init' last') (hextension : EntryName extension) :
    (base.joinPath (path.withExtension extension) ==
      base.joinPath (other.withExtension extension)) = true ↔
      init = init' ∧ setExtension last [] = setExtension last' [] := by
  rw [beq_iff, hnamed.components_withExtension hextension,
    hother.components_withExtension hextension, List.append_cancel_left_eq,
    map_name_injective.eq_iff]
  simp

end Path.Named

/-! ## Artifacts -/

/-- The last name of the path part has no dot but one in first place. -/
def SourceFile.Dotless (file : SourceFile) : Prop :=
  ∀ name, file.pathPart.fileName? = some name → dot ∉ name.tail

/-- The path part with an extension behind it, below a destination. -/
def SourceFile.appended (file : SourceFile) (extension : RawText) (destination : Path) : Path :=
  destination.joinPath ⟨file.pathPart.raw ++ dot :: extension⟩

/-- The path part without what follows the last dot of its last name: the
directories, and what is left of the name. -/
def SourceFile.stem (file : SourceFile) : List Path.Component × Option RawText :=
  (file.pathPart.components.dropLast, file.pathPart.fileName?.map (Path.setExtension · []))

/-- The path parts differ at most in what follows the last dot of the last
name. -/
def SourceFile.sameStem (left right : SourceFile) : Bool :=
  left.stem == right.stem

namespace Hierarchy

open Parcels.FileSystem

/-- What is generated from a header is called after its path part, and no two
headers have it in common. -/
structure ArtifactsApart (hierarchy : Hierarchy) (includeDest sourceDest : Path) : Prop where
  header_eq : ∀ file ∈ hierarchy.files.toList,
    file.headerPath includeDest = file.appended "h" includeDest
  source_eq : ∀ file ∈ hierarchy.files.toList,
    file.cPath sourceDest = file.appended "c" sourceDest
  headers_differ :
    (hierarchy.files.toList.map fun file => (file.headerPath includeDest).components).Nodup
  sources_differ :
    (hierarchy.files.toList.map fun file => (file.cPath sourceDest).components).Nodup

variable {files : FileSystem} {dest : Path} {sourceDirs includeDirs : List Path}
variable {built : Workspace} {file left right : SourceFile}

theorem Collected.exists_named (hcollected : Collected files sourceDirs includeDirs built)
    (hfiles : files.WellFormed) (hfile : file ∈ built.hierarchy.files.toList) :
    ∃ init last, file.pathPart.Named init last := by
  have horigin : originOf file ∈ built.hierarchy.files.toList.map originOf :=
    List.mem_map_of_mem hfile
  rw [hcollected.files_eq, List.mem_map] at horigin
  obtain ⟨found, hfound, heq⟩ := horigin
  rw [headersIn_eq_kept hfiles] at hfound
  obtain ⟨dir, -, hin⟩ := exists_dir (mem_of_mem_kept hfound)
  obtain ⟨init, stem, -, -, hnamed⟩ := Found.exists_stem hfiles hin
  have hpart : found.part = file.pathPart := (Prod.mk.inj (Prod.mk.inj heq).2).1
  rw [hpart] at hnamed
  exact ⟨init, stem, hnamed⟩

theorem dotless_iff {init : List RawText} {last : RawText}
    (hnamed : file.pathPart.Named init last) : file.Dotless ↔ dot ∉ last.tail := by
  simp [SourceFile.Dotless, hnamed.fileName?_eq]

theorem sameStem_iff {init init' : List RawText} {last last' : RawText}
    (hleft : left.pathPart.Named init last) (hright : right.pathPart.Named init' last') :
    left.sameStem right = true ↔
      init = init' ∧ Path.setExtension last [] = Path.setExtension last' [] := by
  simp [SourceFile.sameStem, SourceFile.stem, hleft.components_eq, hright.components_eq,
    hleft.fileName?_eq, hright.fileName?_eq, Path.map_name_injective.eq_iff]

theorem pathPart_eq_of_sameStem {init init' : List RawText} {last last' : RawText}
    (hleft : left.pathPart.Named init last) (hright : right.pathPart.Named init' last')
    (hdotless : left.Dotless) (hdotless' : right.Dotless)
    (hsame : left.sameStem right = true) :
    left.pathPart.components = right.pathPart.components := by
  have hlast := Path.setExtension_eq_self_iff_dotless.mpr ((dotless_iff hleft).mp hdotless)
  have hlast' := Path.setExtension_eq_self_iff_dotless.mpr ((dotless_iff hright).mp hdotless')
  obtain ⟨rfl, hstem⟩ := (sameStem_iff hleft hright).mp hsame
  rw [hlast, hlast'] at hstem
  rw [hleft.components_eq, hright.components_eq, hstem]

section Files

variable (hcollected : Collected files sourceDirs includeDirs built)
  (hfiles : files.WellFormed) {extension : RawText} (hextension : Path.EntryName extension)
  (destination : Path)

include hcollected hfiles hextension

theorem Collected.artifact_eq (hfile : file ∈ built.hierarchy.files.toList)
    (hdotless : file.Dotless) :
    destination.joinPath (file.pathPart.withExtension extension) =
      file.appended extension destination := by
  obtain ⟨init, last, hnamed⟩ := hcollected.exists_named hfiles hfile
  rw [SourceFile.appended, hnamed.withExtension_eq_append hextension
    ((dotless_iff hnamed).mp hdotless)]

/-- An artifact has the extension appended just when its file is dotless. -/
theorem Collected.artifact_beq_iff (hfile : file ∈ built.hierarchy.files.toList) :
    (destination.joinPath (file.pathPart.withExtension extension) ==
      file.appended extension destination) = true ↔ file.Dotless := by
  obtain ⟨init, last, hnamed⟩ := hcollected.exists_named hfiles hfile
  constructor
  · intro hsame
    exact (dotless_iff hnamed).mpr (hnamed.dotless_of_beq hextension hsame)
  · intro hdotless
    rw [hcollected.artifact_eq hfiles hextension destination hfile hdotless]
    exact Path.beq_iff.mpr rfl

/-- Two files share an artifact just when they have the same stem. -/
theorem Collected.artifact_beq (hleft : left ∈ built.hierarchy.files.toList)
    (hright : right ∈ built.hierarchy.files.toList) :
    (destination.joinPath (left.pathPart.withExtension extension) ==
      destination.joinPath (right.pathPart.withExtension extension)) = left.sameStem right := by
  obtain ⟨init, last, hnamed⟩ := hcollected.exists_named hfiles hleft
  obtain ⟨init', last', hnamed'⟩ := hcollected.exists_named hfiles hright
  rw [Bool.eq_iff_iff, hnamed.withExtension_beq_iff hnamed' hextension,
    sameStem_iff hnamed hnamed']

/-- Dotless files share no artifact. -/
theorem Collected.artifacts_differ
    (hdotless : ∀ file ∈ built.hierarchy.files.toList, file.Dotless) :
    (built.hierarchy.files.toList.map fun file =>
      (destination.joinPath (file.pathPart.withExtension extension)).components).Nodup := by
  have hparts := hcollected.pathPart_distinct
  refine hparts.of_map.map_on fun left hleft right hright hsame => ?_
  obtain ⟨init, last, hnamed⟩ := hcollected.exists_named hfiles hleft
  obtain ⟨init', last', hnamed'⟩ := hcollected.exists_named hfiles hright
  have hstem : left.sameStem right = true := by
    rw [← hcollected.artifact_beq hfiles hextension destination hleft hright]
    exact Path.beq_iff.mpr hsame
  exact List.inj_on_of_nodup_map hparts hleft hright
    (pathPart_eq_of_sameStem hnamed hnamed' (hdotless left hleft) (hdotless right hright) hstem)

end Files

/-- The artifacts of a built hierarchy are called after the path parts, each
after its own, just when no header has a further dot in its name.  Two headers
share an artifact just when their parts have the same stem. -/
theorem artifacts_apart_iff (hfiles : files.WellFormed)
    (hbuilds : Builds files dest sourceDirs includeDirs built) (includeDest sourceDest : Path) :
    (built.hierarchy.ArtifactsApart includeDest sourceDest ↔
      ∀ file ∈ built.hierarchy.files.toList, file.Dotless) ∧
    (∀ file ∈ built.hierarchy.files.toList,
      ((file.headerPath includeDest == file.appended "h" includeDest) = true ↔ file.Dotless) ∧
      ((file.cPath sourceDest == file.appended "c" sourceDest) = true ↔ file.Dotless)) ∧
    ∀ left ∈ built.hierarchy.files.toList, ∀ right ∈ built.hierarchy.files.toList,
      (left.headerPath includeDest == right.headerPath includeDest) = left.sameStem right ∧
      (left.cPath sourceDest == right.cPath sourceDest) = left.sameStem right := by
  have hcollected := hbuilds.collected hfiles
  have hheader : Path.EntryName "h" := by decide
  have hsource : Path.EntryName "c" := by decide
  refine ⟨⟨?_, ?_⟩, ?_, ?_⟩
  · intro hapart file hfile
    rw [← hcollected.artifact_beq_iff hfiles hheader includeDest hfile,
      ← hapart.header_eq file hfile]
    exact Path.beq_iff.mpr rfl
  · intro hdotless
    exact {
      header_eq := fun file hfile =>
        hcollected.artifact_eq hfiles hheader includeDest hfile (hdotless file hfile)
      source_eq := fun file hfile =>
        hcollected.artifact_eq hfiles hsource sourceDest hfile (hdotless file hfile)
      headers_differ := hcollected.artifacts_differ hfiles hheader includeDest hdotless
      sources_differ := hcollected.artifacts_differ hfiles hsource sourceDest hdotless }
  · intro file hfile
    exact ⟨hcollected.artifact_beq_iff hfiles hheader includeDest hfile,
      hcollected.artifact_beq_iff hfiles hsource sourceDest hfile⟩
  · intro left hleft right hright
    exact ⟨hcollected.artifact_beq hfiles hheader includeDest hleft hright,
      hcollected.artifact_beq hfiles hsource sourceDest hleft hright⟩

/-! ## A header with a further dot -/

/-- The headers `Ant.cfh` and `Ant.b.cfh` of one parcel. -/
def anthill : FileSystem := .ofTexts
  [("src/Ant.cfp", "\x7b\"name\": \"Ant\", \"version\": \"v1\"\x7d"),
    ("src/Ant.cfh", "parcel Ant; class Worker \x7b\x7d"),
    ("src/Ant.b.cfh", "parcel Ant; class Queen \x7b\x7d")]

theorem anthill_ends :
    Ends (build anthill ⟨newHierarchy ⟨"autogen"⟩ [⟨"src"⟩] [], {}⟩)
      (fun _ built => built.hierarchy.files.toList.map (fun file => file.pathPart.raw) =
          [RawText.ofText "Ant.b", "Ant"] ∧
        built.hierarchy.files.toList.map (fun file =>
            (file.headerPath ⟨"autogen/include"⟩).raw) =
          [RawText.ofText "autogen/include/Ant.h", "autogen/include/Ant.h"])
      (fun _ _ => False) := by
  decide +kernel

theorem anthill_wellFormed : anthill.WellFormed :=
  FileSystem.wellFormed_ofTexts (by decide +kernel)

theorem anthill_artifacts_not_apart :
    anthill.WellFormed ∧ ∃ built, Builds anthill ⟨"autogen"⟩ [⟨"src"⟩] [] built ∧
      (∃ file ∈ built.hierarchy.files.toList, file.pathPart = ⟨"Ant.b"⟩ ∧ ¬ file.Dotless) ∧
      ¬ built.hierarchy.ArtifactsApart ⟨"autogen/include"⟩ ⟨"autogen/source"⟩ := by
  obtain ⟨_, built, hbuilds, hparts, -⟩ := anthill_ends.exists_ok
  obtain ⟨file, hfile, hraw⟩ : ∃ file ∈ built.hierarchy.files.toList,
      file.pathPart.raw = "Ant.b" := List.mem_map.mp (hparts ▸ List.mem_cons_self)
  have hpart : file.pathPart = ⟨"Ant.b"⟩ := congrArg Path.ofRaw hraw
  have hdotted : ¬ file.Dotless := by
    intro hdotless
    have hname : file.pathPart.fileName? = some (RawText.ofText "Ant.b") := by
      rw [hpart]
      decide +kernel
    exact hdotless _ hname (by decide)
  refine ⟨anthill_wellFormed, built, hbuilds, ⟨file, hfile, hpart, hdotted⟩, fun hapart => ?_⟩
  obtain ⟨hiff, -, -⟩ := artifacts_apart_iff anthill_wellFormed hbuilds
    ⟨"autogen/include"⟩ ⟨"autogen/source"⟩
  exact hdotted (hiff.mp hapart file hfile)

/-- Two headers may share their artifacts. -/
theorem artifacts_not_apart :
    ¬ ∀ (files : FileSystem) (dest : Path) (sourceDirs includeDirs : List Path)
      (built : Workspace), files.WellFormed → Builds files dest sourceDirs includeDirs built →
      ∀ includeDest sourceDest, built.hierarchy.ArtifactsApart includeDest sourceDest := by
  intro hallApart
  obtain ⟨_, built, hbuilds, -, hheaders⟩ := anthill_ends.exists_ok
  have hapart := hallApart anthill ⟨"autogen"⟩ [⟨"src"⟩] [] built anthill_wellFormed hbuilds
    ⟨"autogen/include"⟩ ⟨"autogen/source"⟩
  have hdiffer := hapart.headers_differ
  have hsame : (built.hierarchy.files.toList.map fun file =>
      (file.headerPath ⟨"autogen/include"⟩).components) =
      [RawText.ofText "autogen/include/Ant.h", "autogen/include/Ant.h"].map fun raw =>
        Path.components ⟨raw⟩ := by
    simp only [← hheaders, List.map_map, Function.comp_def]
  rw [hsame, List.map_cons, List.map_cons, List.nodup_cons] at hdiffer
  exact hdiffer.1 List.mem_cons_self

end Hierarchy

end Parcels
