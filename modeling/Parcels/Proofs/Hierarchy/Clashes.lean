import Parcels.Proofs.Hierarchy.Artifacts

/-!
# Headers found twice

The part of every header that is read is noted with its dir.  A header of a
source dir whose part has been noted ends the build, so the two dirs reported
both hold a header with one relative path.  The file reported is the part with
an extension in place of what follows the last dot.  That is the relative path
only if the part has no dot.
-/

namespace Parcels.Hierarchy

open Parcels.FileSystem
open RawText (dot)

variable {files : FileSystem} {workspace : Workspace}

/-! ## Reports -/

/-- If the error is that a file was found twice, this is so of what it says. -/
def Reports (Reported : String → String → String → Prop) (error : Error) : Prop :=
  ∀ file first second, error = .foundTwice file first second → Reported file first second

/-- If the step fails, it is not because a file was found twice. -/
def Quiet {Result : Type} (step : Step Result) : Prop :=
  ∀ workspace, Ends (step workspace) (fun _ _ => True)
    fun error _ => Reports (fun _ _ _ => False) error

namespace Quiet

variable {Result Middle : Type}

theorem reports {step : Step Result} (hquiet : Quiet step)
    (Reported : String → String → String → Prop) :
    Ends (step workspace) (fun _ _ => True) fun error _ => Reports Reported error :=
  (hquiet workspace).mono (fun _ _ => id) fun _ _ herror file first second heq =>
    (herror file first second heq).elim

theorem pure (result : Result) : Quiet (Pure.pure result) :=
  fun _ => trivial

theorem throw {error : Error}
    (hother : ∀ file first second, error ≠ .foundTwice file first second) :
    Quiet (throw error : Step Result) :=
  fun _ => hother

theorem throw_bind {error : Error}
    (hother : ∀ file first second, error ≠ .foundTwice file first second)
    (second : Middle → Step Result) : Quiet (MonadExcept.throw error >>= second) :=
  fun _ => hother

theorem get : Quiet get :=
  fun _ => trivial

theorem modify (change : Workspace → Workspace) : Quiet (modify change) :=
  fun _ => trivial

theorem bind {first : Step Middle} {second : Middle → Step Result} (hfirst : Quiet first)
    (hsecond : ∀ middle, Quiet (second middle)) : Quiet (first >>= second) :=
  fun workspace => (hfirst workspace).andThen fun middle between _ => hsecond middle between

theorem forM {Item : Type} {body : Item → Step PUnit} (hbody : ∀ item, Quiet (body item))
    (items : List Item) : Quiet (items.forM body) :=
  fun _ => Ends.forM (fun _ _ => True) (fun _ item _ between _ _ => hbody item between) trivial

theorem mapM {Item : Type} {body : Item → Step Result} (hbody : ∀ item, Quiet (body item))
    (items : List Item) : Quiet (items.mapM body) :=
  fun _ => Ends.mapM (fun _ _ _ => True) (fun _ item _ _ between _ _ => hbody item between) trivial

theorem onModel (action : Action Model Result) : Quiet (onModel action) := by
  intro workspace
  unfold Hierarchy.onModel
  cases action workspace.model with
  | ok result model => trivial
  | error error model => exact nofun

theorem extendModel {Id : Type} (add : Model → Except Parcels.Error (Id × Model)) :
    Quiet (extendModel add) := by
  intro workspace
  unfold Hierarchy.extendModel
  cases add workspace.model with
  | ok extended => trivial
  | error error => exact nofun

theorem discovered (files : FileSystem) (dir : Path) (extension : String) :
    Quiet (discovered files dir extension) := by
  unfold Hierarchy.discovered
  cases files.discover dir extension with
  | ok paths => exact pure paths
  | error failure => exact throw nofun

theorem readSpec (files : FileSystem) (included : Bool) (path : Path) :
    Quiet (readSpec files included path) := by
  unfold Hierarchy.readSpec
  cases files.readText path with
  | error failure => exact throw nofun
  | ok text =>
      cases hparcel : Parcel.fromSpec text path included with
      | error error =>
          simp only [hparcel]
          exact throw nofun
      | ok parcel =>
          simp only [hparcel]
          refine get.bind fun workspace => ?_
          split
          · exact pure ()
          · exact (extendModel _).bind fun _ => pure ()

theorem readSpecs (files : FileSystem) (dir : Path) (included : Bool) :
    Quiet (readSpecs files dir included) :=
  (discovered files dir "cfp").bind (forM (readSpec files included))

theorem parcelNamed (name : String) (path : Path) : Quiet (parcelNamed name path) := by
  refine get.bind fun workspace => ?_
  cases workspace.model.parcelNamed? name with
  | some id => exact pure id
  | none => exact throw nofun

theorem addDecl (index : Nat) (path : Path) (included : Bool) (decl : Decl) :
    Quiet (addDecl index path included decl) := by
  cases decl with
  | parcelStatement name => exact (parcelNamed name path).bind fun id => pure _
  | classHeader parcel header =>
      refine (parcelNamed parcel path).bind fun id => get.bind fun workspace => ?_
      dsimp only
      split
      · exact throw_bind (by nofun) _
      · exact (onModel _).bind fun _ => (modify _).bind fun _ => pure _
  | cBlock code => exact pure _

theorem addFile (path pathPart : Path) (included : Bool) (text : String) :
    Quiet (addFile path pathPart included text) := by
  refine get.bind fun workspace => ?_
  cases Header.scan text with
  | error error => exact throw nofun
  | ok decls =>
      exact (mapM (addDecl _ path included) decls).bind fun blocks => modify _

end Quiet

/-! ## Noted parts -/

/-- A part that is noted is that of a header, noted with the dir of the header. -/
def Noted (headers : List Found) (seen : Seen) : Prop :=
  ∀ (part : Path) dir, seen.lookup part = some dir →
    ∃ header ∈ headers, header.dir = dir ∧ header.part.components = part.components

section Noted

variable {headers more : List Found} {found : Found} {seen : Seen}

theorem noted_nil : Noted headers [] :=
  fun _ _ hlookup => nomatch hlookup

theorem Noted.mono (hnoted : Noted headers seen) (hsubset : headers ⊆ more) :
    Noted more seen := by
  intro part dir hlookup
  obtain ⟨header, hheader, hsame⟩ := hnoted part dir hlookup
  exact ⟨header, hsubset hheader, hsame⟩

theorem Noted.add (hnoted : Noted headers seen) :
    Noted (headers ++ [found]) ((found.part, found.dir) :: seen) := by
  intro part dir hlookup
  rw [List.lookup_cons] at hlookup
  cases hpart : part == found.part with
  | true =>
      rw [hpart] at hlookup
      exact ⟨found, by simp, Option.some.inj hlookup, (Path.beq_iff.mp hpart).symm⟩
  | false =>
      rw [hpart] at hlookup
      exact (hnoted.mono (List.subset_append_left headers [found])) part dir hlookup

/-- The header found last is reported, and one of the other headers has its part. -/
def Repeats (headers : List Found) (found : Found) (file first second : String) : Prop :=
  found.included = false ∧ file = (found.part.withExtension "cfh").text ∧
    second = found.dir.text ∧
    ∃ header ∈ headers, first = header.dir.text ∧
      header.part.components = found.part.components

theorem Noted.readHeader (hnoted : Noted headers seen) (found : Found) :
    Ends (readHeader files found.dir found.included seen found.path workspace)
      (fun seen _ => Noted (headers ++ [found]) seen)
      (fun error _ => Reports (Repeats headers found) error) := by
  unfold Hierarchy.readHeader
  cases hlookup : seen.lookup (partBelow found.dir found.path) with
  | some first =>
      cases hincluded : found.included with
      | true => exact hnoted.mono (List.subset_append_left headers [found])
      | false =>
          obtain ⟨header, hheader, rfl, hpart⟩ := hnoted _ _ hlookup
          change Reports (Repeats headers found)
            (.foundTwice (found.part.withExtension "cfh").text header.dir.text found.dir.text)
          intro file first second heq
          obtain ⟨hfile, hfirst, hsecond⟩ := Error.foundTwice.inj heq
          exact ⟨hincluded, hfile.symm, hsecond.symm, header, hheader, hfirst.symm, hpart⟩
  | none =>
      cases files.readText found.path with
      | error failure =>
          change Reports (Repeats headers found) (.unreadable found.path.text failure)
          exact nofun
      | ok text =>
          exact Ends.andThen ((Quiet.addFile _ _ _ _).reports _) fun _ _ _ => hnoted.add

end Noted

/-! ## Clashing headers -/

/-- Two source dirs each hold one of the headers, at the same relative path. -/
structure Clashing (files : FileSystem) (sourceDirs : List Path) (header other : Found) :
    Prop where
  header_found : ∃ dir ∈ sourceDirs, header ∈ foundIn files "cfh" (dir, false)
  other_found : ∃ dir ∈ sourceDirs, other ∈ foundIn files "cfh" (dir, false)
  dirs_differ : header.dir.components ≠ other.dir.components
  relative_eq : header.relative = other.relative

/-- The dirs of clashing headers are reported, with a file name made from their
part. -/
def ReportsClash (files : FileSystem) (sourceDirs : List Path) (file first second : String) :
    Prop :=
  ∃ header other, Clashing files sourceDirs header other ∧ first = header.dir.text ∧
    second = other.dir.text ∧ file = (other.part.withExtension "cfh").text

/-- The source dirs come first, and they are different dirs. -/
structure SourceFirst (sourceDirs : List Path) (dirs : List (Path × Bool)) : Prop where
  source : ∀ dir ∈ dirs, dir.2 = false → dir.1 ∈ sourceDirs
  before : dirs.Pairwise fun earlier later =>
    later.2 = false → earlier.2 = false ∧ earlier.1.components ≠ later.1.components

theorem pairwise_addNew {known : List Path} (dir : Path)
    (hknown : known.Pairwise fun first second => first.components ≠ second.components) :
    (addNew known dir).Pairwise fun first second => first.components ≠ second.components := by
  unfold addNew
  split
  · exact hknown
  · next hnew =>
    refine List.pairwise_append.mpr ⟨hknown, List.pairwise_singleton _ _, ?_⟩
    intro first hfirst last hlast heq
    rw [List.mem_singleton.mp hlast] at heq
    exact hnew (List.contains_iff_exists_mem_beq.mpr ⟨first, hfirst, Path.beq_iff.mpr heq.symm⟩)

theorem pairwise_eraseDups (dirs : List Path) :
    dirs.eraseDups.Pairwise fun first second => first.components ≠ second.components := by
  have hadded : ∀ known : List Path,
      (known.Pairwise fun first second => first.components ≠ second.components) →
        (dirs.foldl addNew known).Pairwise fun first second =>
          first.components ≠ second.components := by
    induction dirs with
    | nil => exact fun _ hknown => hknown
    | cons dir dirs ih => exact fun known hknown => ih _ (pairwise_addNew dir hknown)
  simpa [foldl_addNew] using hadded [] .nil

theorem sourceFirst_newHierarchy (dest : Path) (sourceDirs includeDirs : List Path) :
    SourceFirst sourceDirs.eraseDups (newHierarchy dest sourceDirs includeDirs).allDirs := by
  rw [allDirs_newHierarchy]
  constructor
  · intro dir hdir hsource
    rcases List.mem_append.mp hdir with hin | hin
    · obtain ⟨path, hpath, rfl⟩ := List.mem_map.mp hin
      exact hpath
    · obtain ⟨path, -, rfl⟩ := List.mem_map.mp hin
      cases hsource
  · refine List.pairwise_append.mpr ⟨?_, ?_, ?_⟩
    · refine List.pairwise_map.mpr ((pairwise_eraseDups sourceDirs).imp ?_)
      exact fun hdiffer _ => ⟨rfl, hdiffer⟩
    · exact List.pairwise_map.mpr (List.pairwise_of_forall fun _ _ => nofun)
    · intro _ _ later hlater hsource
      obtain ⟨path, -, rfl⟩ := List.mem_map.mp hlater
      cases hsource

section Dirs

variable {sourceDirs : List Path} {dirs done rest : List (Path × Bool)} {dir : Path × Bool}
variable {seen : Seen} (hfiles : files.WellFormed)

include hfiles

/-- A header with the part of the one found last was found in an earlier dir,
since no dir holds a relative path twice. -/
theorem clashing_of_part_eq (hdirs : SourceFirst sourceDirs (done ++ dir :: rest))
    {before after : List Path} {path : Path}
    (hdiscover : files.discover dir.1 "cfh" = .ok (before ++ path :: after)) {header : Found}
    (hheader : header ∈ foundBelow files "cfh" done ++ before.map (⟨dir.1, dir.2, ·⟩))
    (hpart : header.part.components = (⟨dir.1, dir.2, path⟩ : Found).part.components)
    (hsource : dir.2 = false) : Clashing files sourceDirs header ⟨dir.1, dir.2, path⟩ := by
  have hfound : ⟨dir.1, dir.2, path⟩ ∈ foundIn files "cfh" dir :=
    mem_foundIn hdiscover (by simp)
  rcases List.mem_append.mp hheader with hearlier | hsame
  · obtain ⟨other, hother, hin⟩ := exists_dir hearlier
    obtain ⟨hotherSource, hdiffer⟩ :=
      (List.pairwise_append.mp hdirs.before).2.2 other hother dir (by simp) hsource
    refine ⟨⟨other.1, hdirs.source other (by simp [hother]) hotherSource, ?_⟩,
      ⟨dir.1, hdirs.source dir (by simp) hsource, ?_⟩, ?_, ?_⟩
    · rwa [← hotherSource]
    · rwa [← hsource]
    · rwa [(of_mem_foundIn hin).1]
    · exact (Found.part_eq_iff hfiles hin hfound).mp hpart
  · have hnodup := nodup_relative hfiles dir
    obtain ⟨first, hfirst, rfl⟩ := List.mem_map.mp hsame
    have hin : ⟨dir.1, dir.2, first⟩ ∈ foundIn files "cfh" dir :=
      mem_foundIn hdiscover (by simp [hfirst])
    rw [foundIn_eq hdiscover, List.map_map, List.map_append, List.nodup_append] at hnodup
    refine absurd ((Found.part_eq_iff hfiles hin hfound).mp hpart) ?_
    exact hnodup.2.2 _ (List.mem_map_of_mem hfirst) _ (by simp)

/-- The headers of a dir are all noted, or one of them clashes with one noted
before. -/
theorem Noted.readHeaders (hnoted : Noted (foundBelow files "cfh" done) seen)
    (hdirs : SourceFirst sourceDirs (done ++ dir :: rest)) :
    Ends (readHeaders files seen dir workspace)
      (fun seen _ => Noted (foundBelow files "cfh" (done ++ [dir])) seen)
      (fun error _ => Reports (ReportsClash files sourceDirs) error) := by
  refine Ends.andThen (((discovered_ends dir.1 "cfh").and
    ((Quiet.discovered files dir.1 "cfh").reports _)).mono (fun _ _ => And.left)
      fun _ _ => And.right) ?_
  rintro paths _ ⟨rfl, hdiscover⟩
  rw [foundBelow_concat, foundIn_eq hdiscover]
  refine Ends.foldlM (fun before seen _ => Noted (foundBelow files "cfh" done ++
    before.map (⟨dir.1, dir.2, ·⟩)) seen) ?_ (by simpa using hnoted)
  intro before path after seen between hpaths hbefore
  refine (hbefore.readHeader ⟨dir.1, dir.2, path⟩).mono ?_ ?_
  · intro seen _ hafter
    simpa using hafter
  · intro error _ hrepeats file first second heq
    obtain ⟨hsource, hfile, hsecond, header, hheader, hfirst, hpart⟩ :=
      hrepeats file first second heq
    exact ⟨header, ⟨dir.1, dir.2, path⟩, clashing_of_part_eq hfiles hdirs (hpaths ▸ hdiscover)
      hheader hpart hsource, hfirst, hsecond, hfile⟩

theorem readHeaders_reports (hdirs : SourceFirst sourceDirs dirs) :
    Ends (dirs.foldlM (readHeaders files) [] workspace) (fun _ _ => True)
      (fun error _ => Reports (ReportsClash files sourceDirs) error) := by
  refine (Ends.foldlM (fun done seen _ => Noted (foundBelow files "cfh" done) seen) ?_
    noted_nil).imp fun _ _ _ => trivial
  intro done dir rest seen between hsplit hnoted
  exact hnoted.readHeaders hfiles (hsplit ▸ hdirs)

/-- A build reports no other clashes than those of headers in source dirs. -/
theorem build_reports (dest : Path) (sourceDirs includeDirs : List Path) :
    Ends (build files ⟨newHierarchy dest sourceDirs includeDirs, {}⟩) (fun _ _ => True)
      (fun error _ => Reports (ReportsClash files sourceDirs.eraseDups) error) := by
  refine Ends.bind (Ends.andThen ((Quiet.forM (fun dir => ?_) _).reports _) fun _ between _ => ?_)
  · exact Quiet.readSpecs files dir.1 dir.2
  · exact Ends.andThen
      (readHeaders_reports hfiles (sourceFirst_newHierarchy dest sourceDirs includeDirs))
      fun _ _ _ => (Quiet.onModel resolve).reports _

end Dirs

/-! ## The file reported -/

/-- The name of the header has no dot but that of its extension and one in first
place. -/
def Found.Dotless (found : Found) : Prop :=
  ∀ name, found.part.fileName? = some name → dot ∉ name.tail

/-- The part of a header gives back its relative path just when it is dotless. -/
theorem Found.withExtension_part_iff {found : Found} {dir : Path × Bool}
    (hfiles : files.WellFormed) (hfound : found ∈ foundIn files "cfh" dir) :
    (found.part.withExtension "cfh").components = found.relative ↔ found.Dotless := by
  have hcfh : Path.EntryName "cfh" := by decide
  obtain ⟨init, stem, -, hrelative, hnamed⟩ := found.exists_stem hfiles hfound
  have hname := (hnamed.names stem (by simp)).setExtension hcfh
  have hcomponents : (found.part.withExtension "cfh").components =
      (init ++ [Path.setExtension stem [] ++ dot :: "cfh"]).map .name := by
    rw [hnamed.withExtension_eq, Path.components_ofNames (hnamed.replaced hname) (by simp),
      Path.setExtension_eq hcfh.nonempty]
  have hdotless : found.Dotless ↔ dot ∉ stem.tail := by
    simp [Dotless, hnamed.fileName?_eq]
  rw [hcomponents, hrelative, Path.map_name_injective.eq_iff, List.append_cancel_left_eq,
    List.singleton_inj, List.append_cancel_right_eq, Path.setExtension_eq_self_iff_dotless,
    hdotless]

/-- The two dirs reported are source dirs, and they hold headers at the relative
path that is reported. -/
def NamesClash (files : FileSystem) (sourceDirs : List Path) (file first second : String) :
    Prop :=
  ∃ header other, Clashing files sourceDirs header other ∧ first = header.dir.text ∧
    second = other.dir.text ∧ (⟨file⟩ : Path).components = other.relative

/-- A build that finds a file twice reports two source dirs that hold headers at
one relative path.  The path that it reports is this one just when the name of
the headers has no further dot, and its text stands for it just when it is
UTF-8. -/
theorem foundTwice_reports_clash (hfiles : files.WellFormed) {dest : Path}
    {sourceDirs includeDirs : List Path} {file first second : String} {after : Workspace}
    (hfails : build files ⟨newHierarchy dest sourceDirs includeDirs, {}⟩ =
      .error (.foundTwice file first second) after) :
    ∃ header other, Clashing files sourceDirs.eraseDups header other ∧
      first = header.dir.text ∧ second = other.dir.text ∧
      file = (other.part.withExtension "cfh").text ∧
      ((other.part.withExtension "cfh").components = other.relative ↔ other.Dotless) ∧
      ((⟨file⟩ : Path) = other.part.withExtension "cfh" ↔
        (RawText.text? (other.part.withExtension "cfh").raw).isSome) := by
  have hreports := build_reports hfiles dest sourceDirs includeDirs
  rw [hfails] at hreports
  obtain ⟨header, other, hclashing, hfirst, hsecond, hfile⟩ := hreports file first second rfl
  obtain ⟨dir, -, hfound⟩ := hclashing.other_found
  exact ⟨header, other, hclashing, hfirst, hsecond, hfile,
    other.withExtension_part_iff hfiles hfound, hfile ▸ Path.mk_text_eq_iff⟩

/-! ## A file with a further dot -/

/-- Two source dirs hold the header `Ant.b.cfh`. -/
def twinHills : FileSystem := .ofTexts
  [("a/Ant.cfp", "\x7b\"name\": \"Ant\", \"version\": \"v1\"\x7d"),
    ("a/Ant.b.cfh", "parcel Ant; class Worker \x7b\x7d"),
    ("b/Ant.b.cfh", "parcel Ant; class Queen \x7b\x7d")]

theorem twinHills_ends :
    Ends (build twinHills ⟨newHierarchy ⟨"autogen"⟩ [⟨"a"⟩, ⟨"b"⟩] [], {}⟩)
      (fun _ _ => False)
      (fun error _ => error = .foundTwice "Ant.cfh" "a" "b") := by
  decide +kernel

theorem twinHills_headers : ∀ dir ∈ [(⟨"a"⟩ : Path), ⟨"b"⟩],
    ∀ header ∈ foundIn twinHills "cfh" (dir, false), header.relative = [.name "Ant.b.cfh"] ∧
      (header.part.withExtension "cfh").raw = "Ant.cfh" := by
  decide +kernel

theorem twinHills_wellFormed : twinHills.WellFormed :=
  FileSystem.wellFormed_ofTexts (by decide +kernel)

theorem twinHills_fails : ∃ after,
    build twinHills ⟨newHierarchy ⟨"autogen"⟩ [⟨"a"⟩, ⟨"b"⟩] [], {}⟩ =
      .error (.foundTwice "Ant.cfh" "a" "b") after := by
  obtain ⟨error, after, hfails, rfl⟩ := twinHills_ends.exists_error
  exact ⟨after, hfails⟩

theorem twinHills_not_at {other : Found}
    (hfound : ∃ dir ∈ List.eraseDups [(⟨"a"⟩ : Path), ⟨"b"⟩],
    other ∈ foundIn twinHills "cfh" (dir, false)) :
    other.part.withExtension "cfh" = ⟨"Ant.cfh"⟩ ∧
      (⟨"Ant.cfh"⟩ : Path).components ≠ other.relative := by
  obtain ⟨dir, hdir, hin⟩ := hfound
  obtain ⟨hrelative, hraw⟩ := twinHills_headers dir hdir other hin
  refine ⟨congrArg Path.ofRaw hraw, ?_⟩
  rw [hrelative]
  decide +kernel

theorem twinHills_reports_other_file :
    twinHills.WellFormed ∧
    (∃ after, build twinHills ⟨newHierarchy ⟨"autogen"⟩ [⟨"a"⟩, ⟨"b"⟩] [], {}⟩ =
      .error (.foundTwice "Ant.cfh" "a" "b") after) ∧
    ∃ header other, Clashing twinHills (List.eraseDups [⟨"a"⟩, ⟨"b"⟩]) header other ∧
      header.dir.text = "a" ∧ other.dir.text = "b" ∧ ¬ other.Dotless := by
  obtain ⟨after, hfails⟩ := twinHills_fails
  obtain ⟨header, other, hclashing, hfirst, hsecond, -, hiff, -⟩ :=
    foundTwice_reports_clash twinHills_wellFormed hfails
  obtain ⟨hpath, hnot⟩ := twinHills_not_at hclashing.other_found
  refine ⟨twinHills_wellFormed, ⟨after, hfails⟩, header, other, hclashing, hfirst.symm,
    hsecond.symm, fun hdotless => hnot ?_⟩
  rw [← hpath]
  exact hiff.mpr hdotless

/-- The path reported may be that of no header. -/
theorem foundTwice_not_names_clash :
    ¬ ∀ (files : FileSystem) (dest : Path) (sourceDirs includeDirs : List Path)
      (file first second : String) (after : Workspace), files.WellFormed →
      build files ⟨newHierarchy dest sourceDirs includeDirs, {}⟩ =
        .error (.foundTwice file first second) after →
      NamesClash files sourceDirs.eraseDups file first second := by
  intro hnames
  obtain ⟨after, hfails⟩ := twinHills_fails
  obtain ⟨header, other, hclashing, -, -, hnamed⟩ :=
    hnames twinHills ⟨"autogen"⟩ [⟨"a"⟩, ⟨"b"⟩] [] "Ant.cfh" "a" "b" after twinHills_wellFormed
      hfails
  exact (twinHills_not_at hclashing.other_found).2 hnamed

end Parcels.Hierarchy
