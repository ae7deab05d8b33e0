import Parcels.Proofs.Hierarchy.Built
import Parcels.Proofs.Hierarchy.Discovered

/-!
# What a build collects

A build registers the parcels and reads the headers that count, dir by dir.
While headers are read, the relative paths met so far are those of all headers
found so far, so an included header is passed over just when an earlier dir has
one with its relative path, and a second header of a source dir ends the build.
-/

namespace Parcels.Hierarchy

open Parcels.FileSystem Parcels.Model

variable {files : FileSystem} {workspace : Workspace}

/-! ## Added dirs -/

/-- A dir that is added again, however it is spelled, changes nothing. -/
theorem foldl_addNew (dirs known : List Path) :
    dirs.foldl addNew known =
      known ++ (dirs.filter fun dir => !known.contains dir).eraseDups := by
  induction dirs generalizing known with
  | nil => simp
  | cons dir dirs ih =>
      rw [List.foldl_cons, ih, List.filter_cons]
      cases hknown : known.contains dir with
      | true => simp [addNew, hknown]
      | false =>
          have hfilter : (dirs.filter fun other => !(known ++ [dir]).contains other) =
              (dirs.filter fun other => !known.contains other).filter fun other =>
                !other == dir := by
            rw [List.filter_filter]
            exact List.filter_congr fun other _ => by simp [Bool.and_comm]
          simp only [addNew, hknown, Bool.false_eq_true, if_false, Bool.not_false, if_true,
            List.eraseDups_cons, hfilter, List.append_assoc, List.singleton_append]

theorem sourceDirs_foldl_addSourceDir (dirs : List Path) (hierarchy : Hierarchy) :
    (dirs.foldl addSourceDir hierarchy).sourceDirs = dirs.foldl addNew hierarchy.sourceDirs := by
  induction dirs generalizing hierarchy with
  | nil => rfl
  | cons dir dirs ih => exact ih _

theorem includeDirs_foldl_addIncludeDir (dirs : List Path) (hierarchy : Hierarchy) :
    (dirs.foldl addIncludeDir hierarchy).includeDirs =
      dirs.foldl addNew hierarchy.includeDirs := by
  induction dirs generalizing hierarchy with
  | nil => rfl
  | cons dir dirs ih => exact ih _

theorem allDirs_newHierarchy (dest : Path) (sourceDirs includeDirs : List Path) :
    (newHierarchy dest sourceDirs includeDirs).allDirs =
      sourceDirs.eraseDups.map (·, false) ++ includeDirs.eraseDups.map (·, true) := by
  have hsource : (newHierarchy dest sourceDirs includeDirs).sourceDirs =
      sourceDirs.eraseDups := by
    rw [newHierarchy, foldl_eq_of_kept Hierarchy.sourceDirs addIncludeDir fun _ _ => rfl,
      sourceDirs_foldl_addSourceDir, foldl_addNew]
    simp
  have hinclude : (newHierarchy dest sourceDirs includeDirs).includeDirs =
      includeDirs.eraseDups := by
    rw [newHierarchy, includeDirs_foldl_addIncludeDir,
      foldl_eq_of_kept Hierarchy.includeDirs addSourceDir fun _ _ => rfl, foldl_addNew]
    simp
  rw [allDirs, hsource, hinclude]

/-! ## Specs -/

/-- The parcel that the spec in a file describes. -/
def parcelOf? (files : FileSystem) (found : Found) : Option Parcel := do
  let text ← (files.readText found.path).toOption
  (Parcel.fromSpec text found.path found.included).toOption

/-- The parcels that specs describe, in order. -/
def described (files : FileSystem) (specs : List Found) : List Parcel :=
  specs.filterMap (parcelOf? files)

/-- The specs have been read, and the parcels that count are registered. -/
structure Registered (files : FileSystem) (specs : List Found) (workspace : Workspace) :
    Prop where
  read : ∀ found ∈ specs, ∃ parcel, parcelOf? files found = some parcel
  specs_eq : workspace.model.specs.toList =
    kept Parcel.name Parcel.included [] (described files specs)

section Specs

variable {specs : List Found} {found : Found} {parcel : Parcel}

/-- A name is taken if a spec had it, be it one that was passed over. -/
theorem Registered.parcelNamed?_eq_none_iff (hregistered : Registered files specs workspace)
    {name : String} : workspace.model.parcelNamed? name = none ↔
      name ∉ (described files specs).map Parcel.name := by
  have hnames : name ∈ (kept Parcel.name Parcel.included [] (described files specs)).map
      Parcel.name ↔ name ∈ (described files specs).map Parcel.name := mem_map_kept_iff
  rw [Model.parcelNamed?_eq_none_iff, hregistered.specs_eq, ← hnames]
  simp

theorem described_concat (hparcel : parcelOf? files found = some parcel) :
    described files (specs ++ [found]) = described files specs ++ [parcel] := by
  simp [described, hparcel]

theorem Registered.read_concat (hregistered : Registered files specs workspace)
    (hparcel : parcelOf? files found = some parcel) :
    ∀ other ∈ specs ++ [found], ∃ parcel, parcelOf? files other = some parcel := by
  intro other hother
  rcases List.mem_append.mp hother with hold | hnew
  · exact hregistered.read other hold
  · exact ⟨parcel, List.mem_singleton.mp hnew ▸ hparcel⟩

theorem Registered.skip (hregistered : Registered files specs workspace)
    (hparcel : parcelOf? files found = some parcel) (hincluded : parcel.included = true)
    (hnamed : workspace.model.parcelNamed? parcel.name ≠ none) :
    Registered files (specs ++ [found]) workspace where
  read := hregistered.read_concat hparcel
  specs_eq := by
    have hname := Classical.not_not.mp (hregistered.parcelNamed?_eq_none_iff.not.mp hnamed)
    rw [described_concat hparcel, kept_concat_of_mem hincluded hname, hregistered.specs_eq]

theorem Registered.register (hregistered : Registered files specs workspace)
    (hparcel : parcelOf? files found = some parcel) {id : ParcelId} {after : Model}
    (hregister : workspace.model.register parcel = .ok (id, after)) :
    Registered files (specs ++ [found]) { workspace with model := after } where
  read := hregistered.read_concat hparcel
  specs_eq := by
    obtain ⟨-, rfl, hname, -⟩ := register_eq_ok hregister
    have hnew := hregistered.parcelNamed?_eq_none_iff.mp hname
    rw [described_concat hparcel, kept_concat fun _ => hnew, ← hregistered.specs_eq]
    simp [Model.specs]

theorem Registered.readSpec (hregistered : Registered files specs workspace) (found : Found) :
    Ends (readSpec files found.included found.path workspace)
      (fun _ after => after.hierarchy = workspace.hierarchy ∧
        Registered files (specs ++ [found]) after)
      (fun _ _ => True) := by
  unfold Hierarchy.readSpec
  cases htext : files.readText found.path with
  | error failure => trivial
  | ok text =>
      cases hspec : Parcel.fromSpec text found.path found.included with
      | error error => simp only [hspec]; trivial
      | ok parcel =>
          have hparcel : parcelOf? files found = some parcel := by
            simp [parcelOf?, htext, hspec, Except.toOption]
          have hincluded := Parcel.included_of_fromSpec hspec
          simp only [hspec]
          rw [bind_get]
          split
          · next hskip =>
            obtain ⟨hskip, hnamed⟩ := Bool.and_eq_true_iff.mp hskip
            exact ⟨rfl, hregistered.skip hparcel (hincluded.trans hskip)
              (Option.isSome_iff_ne_none.mp hnamed)⟩
          · exact Ends.bind (extendModel_ends fun id after hregister =>
              ⟨rfl, hregistered.register hparcel hregister⟩)

theorem Registered.readSpecs (hregistered : Registered files specs workspace)
    (dir : Path × Bool) :
    Ends (readSpecs files dir.1 dir.2 workspace)
      (fun _ after => after.hierarchy = workspace.hierarchy ∧
        (∃ paths, files.discover dir.1 "cfp" = .ok paths) ∧
          Registered files (specs ++ foundIn files "cfp" dir) after)
      (fun _ _ => True) := by
  apply Ends.andThen (discovered_ends dir.1 "cfp")
  intro paths between hpaths
  obtain ⟨rfl, hdiscover⟩ := hpaths
  refine (Ends.forM (fun done after => after.hierarchy = between.hierarchy ∧
    Registered files (specs ++ done.map fun path => ⟨dir.1, dir.2, path⟩) after)
    ?step ⟨rfl, by simpa using hregistered⟩).imp ?finish
  case step =>
    intro done path rest before _ hbefore
    apply (hbefore.2.readSpec ⟨dir.1, dir.2, path⟩).imp
    intro _ after hafter
    rw [List.map_append, ← List.append_assoc]
    exact ⟨hafter.1.trans hbefore.1, hafter.2⟩
  case finish =>
    intro _ after hafter
    rw [foundIn_eq hdiscover]
    exact ⟨hafter.1, ⟨paths, hdiscover⟩, hafter.2⟩

end Specs

/-! ## Headers -/

/-- What reading headers leaves as it was. -/
structure Framed (before after : Workspace) : Prop where
  specs_eq : after.model.specs = before.model.specs
  allDirs_eq : after.hierarchy.allDirs = before.hierarchy.allDirs

theorem Framed.refl (workspace : Workspace) : Framed workspace workspace :=
  ⟨rfl, rfl⟩

theorem Framed.trans {between after : Workspace} (hfirst : Framed workspace between)
    (hsecond : Framed between after) : Framed workspace after :=
  ⟨hsecond.specs_eq.trans hfirst.specs_eq, hsecond.allDirs_eq.trans hfirst.allDirs_eq⟩

/-- A file joins the others, and its classes join the model. -/
theorem addFile_origin (path pathPart : Path) (included : Bool) (text : String) :
    Ends (addFile path pathPart included text workspace)
      (fun _ after => Framed workspace after ∧
        after.hierarchy.files.toList.map originOf =
          workspace.hierarchy.files.toList.map originOf ++ [(path, pathPart, included)])
      (fun _ _ => True) := by
  refine addFile_ends (fun _ _ during => Framed workspace during ∧
    during.hierarchy.files = workspace.hierarchy.files) ⟨.refl workspace, rfl⟩ ?_ ?_
  · intro done blocks before decl block after hduring hadds
    cases hadds with
    | parcel => exact hduring
    | cBlock => exact hduring
    | member hnamed _ hadd =>
        have hid := (parcelNamed?_eq_some hnamed).1
        have hspecs := (addClass_eq_ok hid hadd).2.2.specs_eq
        exact ⟨hduring.1.trans ⟨hspecs, rfl⟩, hduring.2⟩
  · intro decls blocks read _ hread
    exact ⟨hread.1.trans ⟨rfl, rfl⟩, by simp [hread.2, originOf]⟩

/-- The headers have been gone through: the parts of all have been met, and
those that count have been read. -/
structure Gathered (headers : List Found) (seen : Seen) (workspace : Workspace) : Prop where
  seen_iff : ∀ part : Path, (seen.lookup part).isSome = true ↔
    part.components ∈ headers.map fun header => header.part.components
  files_eq : workspace.hierarchy.files.toList.map originOf =
    (kept Found.relative Found.included [] headers).map Found.origin
  distinct : ((kept Found.relative Found.included [] headers).map Found.relative).Nodup

section Headers

variable {headers : List Found} {found : Found} {seen : Seen} {dir : Path × Bool}

theorem Gathered.skip (hgathered : Gathered headers seen workspace)
    (hincluded : found.included = true) (hpart : (seen.lookup found.part).isSome = true)
    (hrelative : found.relative ∈ headers.map Found.relative) :
    Gathered (headers ++ [found]) seen workspace where
  seen_iff := by
    intro part
    have hmet := (hgathered.seen_iff found.part).mp hpart
    rw [hgathered.seen_iff, List.map_append, List.mem_append, List.map_singleton,
      List.mem_singleton]
    refine ⟨.inl, fun hcase => ?_⟩
    rcases hcase with hold | hsame
    · exact hold
    · rw [hsame]
      exact hmet
  files_eq := by rw [kept_concat_of_mem hincluded hrelative, hgathered.files_eq]
  distinct := by
    rw [kept_concat_of_mem hincluded hrelative]
    exact hgathered.distinct

theorem Gathered.add (hgathered : Gathered headers seen workspace)
    (hrelative : found.relative ∉ headers.map Found.relative) {after : Workspace}
    (hfiles : after.hierarchy.files.toList.map originOf =
      workspace.hierarchy.files.toList.map originOf ++ [found.origin]) :
    Gathered (headers ++ [found]) ((found.part, found.dir) :: seen) after where
  seen_iff := by
    intro part
    rw [List.lookup_cons, List.map_append, List.mem_append, ← hgathered.seen_iff,
      List.map_singleton, List.mem_singleton, ← Path.beq_iff]
    cases part == found.part with
    | true => simp
    | false => simp
  files_eq := by
    rw [kept_concat fun _ => hrelative, hfiles, hgathered.files_eq, List.map_append,
      List.map_singleton]
  distinct := by
    have hnew : found.relative ∉
        (kept Found.relative Found.included [] headers).map Found.relative :=
      fun hmem => hrelative (mem_map_kept_iff.mp hmem)
    rw [kept_concat fun _ => hrelative, List.map_append]
    simpa using hgathered.distinct.concat hnew

/-- One header is read, or passed over if an earlier one has its relative path. -/
theorem Gathered.readHeader (hgathered : Gathered headers seen workspace)
    (hfiles : files.WellFormed)
    (hheaders : ∀ header ∈ headers, ∃ dir, header ∈ foundIn files "cfh" dir)
    (hfound : found ∈ foundIn files "cfh" dir) :
    Ends (readHeader files found.dir found.included seen found.path workspace)
      (fun seen after => Framed workspace after ∧ Gathered (headers ++ [found]) seen after)
      (fun _ _ => True) := by
  have hmet : (seen.lookup found.part).isSome = true ↔
      found.relative ∈ headers.map Found.relative := by
    rw [hgathered.seen_iff, List.mem_map, List.mem_map]
    refine exists_congr fun header => and_congr_right fun hheader => ?_
    obtain ⟨headerDir, hheaderDir⟩ := hheaders header hheader
    exact Found.part_eq_iff hfiles hheaderDir hfound
  unfold Hierarchy.readHeader
  cases hlookup : seen.lookup (partBelow found.dir found.path) with
  | some first =>
      have hpart : (seen.lookup found.part).isSome = true := Option.isSome_of_eq_some hlookup
      cases hincluded : found.included with
      | true => exact ⟨.refl workspace, hgathered.skip hincluded hpart (hmet.mp hpart)⟩
      | false => trivial
  | none =>
      have hpart : ¬ (seen.lookup found.part).isSome = true := by
        rw [Found.part, hlookup]
        exact Bool.false_ne_true
      cases htext : files.readText found.path with
      | error failure => trivial
      | ok text =>
          apply Ends.andThen (addFile_origin found.path found.part found.included text)
          intro _ after hafter
          exact ⟨hafter.1, hgathered.add (hmet.not.mp hpart) hafter.2⟩

theorem Gathered.readHeaders (hgathered : Gathered headers seen workspace)
    (hfiles : files.WellFormed)
    (hheaders : ∀ header ∈ headers, ∃ dir, header ∈ foundIn files "cfh" dir)
    (dir : Path × Bool) :
    Ends (readHeaders files seen dir workspace)
      (fun seen after => Framed workspace after ∧
        (∃ paths, files.discover dir.1 "cfh" = .ok paths) ∧
          Gathered (headers ++ foundIn files "cfh" dir) seen after)
      (fun _ _ => True) := by
  apply Ends.andThen (discovered_ends dir.1 "cfh")
  intro paths between hpaths
  obtain ⟨rfl, hdiscover⟩ := hpaths
  refine (Ends.foldlM (fun done seen after => Framed between after ∧
    Gathered (headers ++ done.map fun path => ⟨dir.1, dir.2, path⟩) seen after)
    ?step ⟨.refl between, by simpa using hgathered⟩).imp ?finish
  case step =>
    intro done path rest seen before hpaths hbefore
    have hdone : ∀ header ∈ headers ++ done.map fun path => (⟨dir.1, dir.2, path⟩ : Found),
        ∃ dir, header ∈ foundIn files "cfh" dir := by
      intro header hheader
      rcases List.mem_append.mp hheader with hold | hnew
      · exact hheaders header hold
      · obtain ⟨other, hother, rfl⟩ := List.mem_map.mp hnew
        exact ⟨dir, mem_foundIn hdiscover (hpaths ▸ List.mem_append_left _ hother)⟩
    have hfound : ⟨dir.1, dir.2, path⟩ ∈ foundIn files "cfh" dir :=
      mem_foundIn hdiscover (by simp [hpaths])
    apply (hbefore.2.readHeader hfiles hdone hfound).imp
    intro _ after hafter
    rw [List.map_append, ← List.append_assoc]
    exact ⟨hbefore.1.trans hafter.1, hafter.2⟩
  case finish =>
    intro _ after hafter
    rw [foundIn_eq hdiscover]
    exact ⟨hafter.1, ⟨paths, hdiscover⟩, hafter.2⟩

end Headers

/-! ## The whole build -/

/-- What a build of a new hierarchy has collected. -/
structure Collected (files : FileSystem) (sourceDirs includeDirs : List Path)
    (built : Workspace) : Prop where
  /-- The dirs are searched in the order in which they were added, source dirs
  first; a dir that was added again is searched once. -/
  allDirs_eq : built.hierarchy.allDirs =
    sourceDirs.eraseDups.map (·, false) ++ includeDirs.eraseDups.map (·, true)
  /-- Every dir can be searched, so `foundBelow` is what discovery finds. -/
  searched : ∀ dir ∈ built.hierarchy.allDirs,
    (∃ paths, files.discover dir.1 "cfp" = .ok paths) ∧
      ∃ paths, files.discover dir.1 "cfh" = .ok paths
  files_eq : built.hierarchy.files.toList.map originOf =
    (headersIn files [] built.hierarchy.allDirs).map Found.origin
  comes_from : ∀ found ∈ headersIn files [] built.hierarchy.allDirs,
    found.included = false ∧ found.dir ∈ sourceDirs.eraseDups ∨
      found.included = true ∧ found.dir ∈ includeDirs.eraseDups
  relative_distinct :
    ((headersIn files [] built.hierarchy.allDirs).map Found.relative).Nodup
  pathPart_distinct :
    (built.hierarchy.files.toList.map fun file => file.pathPart.components).Nodup
  read : ∀ found ∈ foundBelow files "cfp" built.hierarchy.allDirs,
    ∃ parcel, parcelOf? files found = some parcel
  parcels_eq : built.model.specs.toList =
    kept Parcel.name Parcel.included []
      (described files (foundBelow files "cfp" built.hierarchy.allDirs))

/-- Two source dirs hold headers with the same relative path. -/
def Clash (files : FileSystem) (sourceDirs : List Path) : Prop :=
  ∃ first ∈ sourceDirs, ∃ second ∈ sourceDirs, first ≠ second ∧
    ∃ header ∈ foundIn files "cfh" (first, false),
      ∃ other ∈ foundIn files "cfh" (second, false), header.relative = other.relative

theorem readSpecs_collects (hsteady : Steady workspace)
    (hempty : workspace.model.specs = #[]) (dirs : List (Path × Bool)) :
    Ends (dirs.forM (fun dir => readSpecs files dir.1 dir.2) workspace)
      (fun _ after => Steady after ∧ after.hierarchy = workspace.hierarchy ∧
        (∀ dir ∈ dirs, ∃ paths, files.discover dir.1 "cfp" = .ok paths) ∧
          Registered files (foundBelow files "cfp" dirs) after)
      (fun _ _ => True) := by
  have hstart : Registered files [] workspace := ⟨by simp, by simp [hempty, described, kept]⟩
  refine Ends.forM (fun done after => Steady after ∧ after.hierarchy = workspace.hierarchy ∧
    (∀ dir ∈ done, ∃ paths, files.discover dir.1 "cfp" = .ok paths) ∧
      Registered files (foundBelow files "cfp" done) after)
    (fun done dir _ between _ hbetween => ?_) ⟨hsteady, rfl, by simp, hstart⟩
  obtain ⟨hbefore, hhierarchy, hsearched, hregistered⟩ := hbetween
  have hsteady : Ends (readSpecs files dir.1 dir.2 between) (fun _ => Steady) (fun _ _ => True) :=
    readSpecs_keeps (fun _ _ hworkspace hparcel => hworkspace.register hparcel) hbefore
      dir.1 dir.2
  apply (hsteady.both (hregistered.readSpecs dir)).imp
  intro _ after hafter
  obtain ⟨hafter, hsame, hdir, hread⟩ := hafter
  rw [foundBelow_concat]
  exact ⟨hafter, hsame.trans hhierarchy,
    List.forall_mem_append.mpr ⟨hsearched, by simpa using hdir⟩, hread⟩

theorem readHeaders_collects (hfiles : files.WellFormed) (hsteady : Steady workspace)
    (hempty : workspace.hierarchy.files = #[]) (dirs : List (Path × Bool)) :
    Ends (dirs.foldlM (readHeaders files) [] workspace)
      (fun seen after => Steady after ∧ Framed workspace after ∧
        (∀ dir ∈ dirs, ∃ paths, files.discover dir.1 "cfh" = .ok paths) ∧
          Gathered (foundBelow files "cfh" dirs) seen after)
      (fun _ _ => True) := by
  have hstart : Gathered [] [] workspace := ⟨by simp, by simp [hempty, kept], by simp [kept]⟩
  refine Ends.foldlM (fun done seen after => Steady after ∧ Framed workspace after ∧
    (∀ dir ∈ done, ∃ paths, files.discover dir.1 "cfh" = .ok paths) ∧
      Gathered (foundBelow files "cfh" done) seen after)
    (fun done dir _ seen between _ hbetween => ?_) ⟨hsteady, .refl workspace, by simp, hstart⟩
  obtain ⟨hbefore, hframed, hsearched, hgathered⟩ := hbetween
  have hsteady : Ends (readHeaders files seen dir between) (fun _ => Steady) (fun _ _ => True) :=
    readHeaders_keeps (fun _ path pathPart included text hworkspace _ =>
      hworkspace.addFile path pathPart included text) hbefore seen dir
  have hfound : ∀ header ∈ foundBelow files "cfh" done,
      ∃ dir, header ∈ foundIn files "cfh" dir := by
    intro header hheader
    obtain ⟨other, _, hother⟩ := exists_dir hheader
    exact ⟨other, hother⟩
  apply (hsteady.both (hgathered.readHeaders hfiles hfound dir)).imp
  intro _ after hafter
  obtain ⟨hafter, hsame, hdir, hread⟩ := hafter
  rw [foundBelow_concat]
  exact ⟨hafter, hframed.trans hsame,
    List.forall_mem_append.mpr ⟨hsearched, by simpa using hdir⟩, hread⟩

/-- Different relative paths leave different paths without extension. -/
theorem Gathered.pathPart_distinct {dirs : List (Path × Bool)} {seen : Seen}
    (hgathered : Gathered (foundBelow files "cfh" dirs) seen workspace)
    (hfiles : files.WellFormed) :
    (workspace.hierarchy.files.toList.map fun file => file.pathPart.components).Nodup := by
  have hsame : (workspace.hierarchy.files.toList.map fun file => file.pathPart.components) =
      (kept Found.relative Found.included [] (foundBelow files "cfh" dirs)).map fun found =>
        found.part.components :=
    calc workspace.hierarchy.files.toList.map (fun file => file.pathPart.components)
      _ = (workspace.hierarchy.files.toList.map originOf).map fun origin =>
          origin.2.1.components := by
        simp only [List.map_map, Function.comp_def, originOf]
      _ = _ := by
        rw [hgathered.files_eq]
        simp only [List.map_map, Function.comp_def, Found.origin]
  rw [hsame]
  refine hgathered.distinct.of_map.map_on fun found hfound other hother heq => ?_
  obtain ⟨_, _, hdir⟩ := exists_dir (mem_of_mem_kept hfound)
  obtain ⟨_, _, hotherDir⟩ := exists_dir (mem_of_mem_kept hother)
  exact List.inj_on_of_nodup_map hgathered.distinct hfound hother
    ((Found.part_eq_iff hfiles hdir hotherDir).mp heq)

/-- A header comes from a dir of its own kind. -/
theorem included_of_kept {dest : Path} {sourceDirs includeDirs : List Path} {found : Found}
    (hfound : found ∈ kept Found.relative Found.included []
      (foundBelow files "cfh" (newHierarchy dest sourceDirs includeDirs).allDirs)) :
    found.included = false ∧ found.dir ∈ sourceDirs.eraseDups ∨
      found.included = true ∧ found.dir ∈ includeDirs.eraseDups := by
  obtain ⟨dir, hdir, hin⟩ := exists_dir (mem_of_mem_kept hfound)
  obtain ⟨hpath, hincluded, -⟩ := of_mem_foundIn hin
  rw [allDirs_newHierarchy, List.mem_append, List.mem_map, List.mem_map] at hdir
  rw [hpath, hincluded]
  rcases hdir with ⟨source, hsource, rfl⟩ | ⟨installed, hinstalled, rfl⟩
  · exact .inl ⟨rfl, hsource⟩
  · exact .inr ⟨rfl, hinstalled⟩

theorem Builds.collected (hfiles : files.WellFormed) {dest : Path}
    {sourceDirs includeDirs : List Path} {built : Workspace}
    (hbuilds : Builds files dest sourceDirs includeDirs built) :
    Collected files sourceDirs includeDirs built := by
  have hends : Ends (build files ⟨newHierarchy dest sourceDirs includeDirs, {}⟩)
      (fun _ => Collected files sourceDirs includeDirs) (fun _ _ => True) := by
    refine Ends.bind (Ends.andThen
      (readSpecs_collects (steady_newHierarchy dest sourceDirs includeDirs) (by simp [specs]) _) ?_)
    intro _ specsRead hspecs
    obtain ⟨hsteady, hhierarchy, hspecsFound, hregistered⟩ := hspecs
    have hempty : specsRead.hierarchy.files = #[] := by
      rw [hhierarchy]
      exact (newHierarchy_empty dest sourceDirs includeDirs).2
    refine Ends.andThen (readHeaders_collects hfiles hsteady hempty _) ?_
    intro seen headersRead hheaders
    obtain ⟨hsteady, hframed, hheadersFound, hgathered⟩ := hheaders
    have hdirs : headersRead.hierarchy.allDirs =
        (newHierarchy dest sourceDirs includeDirs).allDirs := by
      rw [hframed.allDirs_eq, hhierarchy]
    refine onModel_ends ((resolve_ends hsteady.unfailed).imp fun _ after hresolved => ?_)
    have hkept := headersIn_eq_kept hfiles [] (newHierarchy dest sourceDirs includeDirs).allDirs
    exact {
      allDirs_eq := hdirs.trans (allDirs_newHierarchy dest sourceDirs includeDirs)
      searched := by
        rw [hdirs]
        exact fun dir hdir => ⟨hspecsFound dir hdir, hheadersFound dir hdir⟩
      files_eq := by
        rw [hdirs, hkept]
        exact hgathered.files_eq
      comes_from := by
        rw [hdirs, hkept]
        exact fun found hfound => included_of_kept hfound
      relative_distinct := by
        rw [hdirs, hkept]
        exact hgathered.distinct
      pathPart_distinct := hgathered.pathPart_distinct hfiles
      read := by
        rw [hdirs]
        exact hregistered.read
      parcels_eq := by
        rw [hdirs, hresolved.specs_eq, hframed.specs_eq]
        exact hregistered.specs_eq }
  exact hends.of_eq_ok hbuilds

/-- A clash leaves two headers among those that would count. -/
theorem Collected.not_clash {sourceDirs includeDirs : List Path} {built : Workspace}
    (hcollected : Collected files sourceDirs includeDirs built) (hfiles : files.WellFormed) :
    ¬ Clash files sourceDirs.eraseDups := by
  intro hclash
  obtain ⟨first, hfirst, second, hsecond, hne, header, hheader, other, hother, heq⟩ := hclash
  have hkept : ∀ dir ∈ sourceDirs.eraseDups, ∀ found ∈ foundIn files "cfh" (dir, false),
      found ∈ headersIn files [] built.hierarchy.allDirs := by
    intro dir hdir found hfound
    have hbelow : found ∈ foundBelow files "cfh" built.hierarchy.allDirs :=
      List.mem_flatMap.mpr ⟨(dir, false), by simp [hcollected.allDirs_eq, hdir], hfound⟩
    rw [headersIn_eq_kept hfiles]
    exact mem_kept hbelow (of_mem_foundIn hfound).2.1
  have hsame := List.inj_on_of_nodup_map hcollected.relative_distinct
    (hkept first hfirst header hheader) (hkept second hsecond other hother) heq
  apply hne
  calc first = header.dir := (of_mem_foundIn hheader).1.symm
    _ = other.dir := congrArg Found.dir hsame
    _ = second := (of_mem_foundIn hother).1

/-- A build of a new hierarchy that succeeds has collected, dir by dir, what
counts.  With a clash of source dirs no build succeeds. -/
theorem build_collects (hfiles : files.WellFormed) (dest : Path)
    (sourceDirs includeDirs : List Path) :
    (∀ built, Builds files dest sourceDirs includeDirs built →
      Collected files sourceDirs includeDirs built) ∧
    (Clash files sourceDirs.eraseDups → ∃ error after,
      build files ⟨newHierarchy dest sourceDirs includeDirs, {}⟩ = .error error after) := by
  have hcollected : ∀ built, Builds files dest sourceDirs includeDirs built →
      Collected files sourceDirs includeDirs built := fun built hbuilds =>
    hbuilds.collected hfiles
  refine ⟨hcollected, fun hclash => ?_⟩
  cases hrun : build files ⟨newHierarchy dest sourceDirs includeDirs, {}⟩ with
  | error error after => exact ⟨error, after, rfl⟩
  | ok _ built => exact absurd hclash ((hcollected built hrun).not_clash hfiles)

/-! ## An include dir with old and new -/

/-- The include dir repeats the parcel and a header of the source dir and has
a parcel and a header of its own. -/
def paddock : FileSystem := .ofTexts
  [("src/Bee.cfp", "\x7b\"name\": \"Bee\", \"version\": \"v1\"\x7d"),
    ("src/hive/Drone.cfh", "parcel Bee; class Drone \x7b\x7d"),
    ("inc/Ant.cfp", "\x7b\"name\": \"Ant\", \"version\": \"v1\"\x7d"),
    ("inc/Bee.cfp", "\x7b\"name\": \"Bee\", \"version\": \"v2\"\x7d"),
    ("inc/hive/Drone.cfh", "parcel Bee; class Drone \x7b\x7d"),
    ("inc/Worker.cfh", "parcel Ant; class Worker \x7b\x7d")]

theorem paddock_ends :
    Ends (build paddock ⟨newHierarchy ⟨"autogen"⟩ [⟨"src"⟩, ⟨"src/"⟩] [⟨"inc"⟩], {}⟩)
      (fun _ built =>
        built.hierarchy.files.toList.map (fun file => (file.path.text, file.included)) =
          [("src/hive/Drone.cfh", false), ("inc/Worker.cfh", true)] ∧
        built.model.specs.toList.map (fun parcel => (parcel.name, parcel.included)) =
          [("Bee", false), ("Ant", true)])
      (fun _ _ => False) := by
  decide +kernel

theorem paddock_collected :
    paddock.WellFormed ∧
    (∃ built, Builds paddock ⟨"autogen"⟩ [⟨"src"⟩, ⟨"src/"⟩] [⟨"inc"⟩] built ∧
      Collected paddock [⟨"src"⟩, ⟨"src/"⟩] [⟨"inc"⟩] built ∧
      built.hierarchy.files.toList.map (fun file => (file.path.text, file.included)) =
        [("src/hive/Drone.cfh", false), ("inc/Worker.cfh", true)] ∧
      built.model.specs.toList.map (fun parcel => (parcel.name, parcel.included)) =
        [("Bee", false), ("Ant", true)]) ∧
    ∃ error after,
      build paddock ⟨newHierarchy ⟨"autogen"⟩ [⟨"src"⟩, ⟨"inc"⟩] [], {}⟩ = .error error after := by
  have hfiles : paddock.WellFormed := FileSystem.wellFormed_ofTexts (by decide +kernel)
  obtain ⟨_, built, hbuilds, hheaders, hparcels⟩ := paddock_ends.exists_ok
  have hclash : Clash paddock (List.eraseDups [⟨"src"⟩, ⟨"inc"⟩]) := by
    have hdirs : List.eraseDups [(⟨"src"⟩ : Path), ⟨"inc"⟩] = [⟨"src"⟩, ⟨"inc"⟩] := rfl
    rw [hdirs]
    have hdiffer : (⟨"src"⟩ : Path) ≠ ⟨"inc"⟩ := fun hsame =>
      absurd (congrArg Path.raw hsame) (by decide)
    exact ⟨⟨"src"⟩, by simp, ⟨"inc"⟩, by simp, hdiffer, by decide +kernel⟩
  refine ⟨hfiles, ⟨built, hbuilds, ?_, hheaders, hparcels⟩, ?_⟩
  · exact (build_collects hfiles _ _ _).1 built hbuilds
  · exact (build_collects hfiles _ _ _).2 hclash

end Parcels.Hierarchy
