import Parcels.Proofs.Hierarchy.Resolve
import Parcels.Proofs.Parcel.Specs

/-!
# Built hierarchies

A build changes its model by calls that pass, and it enters every class that
joins in the file being read.  Errors end a build, so nothing is said about
what they leave.
-/

namespace Parcels.Hierarchy

open Model

/-- A new hierarchy to which source and include dirs have been added. -/
def newHierarchy (dest : Path) (sourceDirs includeDirs : List Path) : Hierarchy :=
  includeDirs.foldl addIncludeDir (sourceDirs.foldl addSourceDir { dest := dest })

/-- The workspace that a build of a new hierarchy leaves on success. -/
def Builds (files : FileSystem) (dest : Path) (sourceDirs includeDirs : List Path)
    (built : Workspace) : Prop :=
  build files ⟨newHierarchy dest sourceDirs includeDirs, {}⟩ = .ok () built

/-- The classes of the model, and no others, are entered in the files before
`bound`. -/
structure Entered (bound : Nat) (workspace : Workspace) : Prop where
  unfailed : workspace.model.Unfailed
  placed : ∀ id ∈ workspace.model.classIds, ∃ index,
    workspace.hierarchy.fileIndices.lookup id = some index
  known : ∀ id index, workspace.hierarchy.fileIndices.lookup id = some index →
    id ∈ workspace.model.classIds ∧ index < bound

/-- A class is entered at the place of the file that lists it.  The blocks are
those read so far of the file that comes next. -/
def Listed (blocks : List Block) (hierarchy : Hierarchy) : Prop :=
  ∀ id index, hierarchy.fileIndices.lookup id = some index ↔
    (∃ file, hierarchy.files[index]? = some file ∧ id ∈ file.classes) ∨
      index = hierarchy.files.size ∧ id ∈ blocks.filterMap Block.member?

/-- Blocks of the file that will stand at `index` have been read. -/
structure Reading (index : Nat) (blocks : List Block) (workspace : Workspace) :
    Prop extends Entered (index + 1) workspace where
  size_eq : workspace.hierarchy.files.size = index
  listed : Listed blocks workspace.hierarchy

/-- No file is being read. -/
structure Steady (workspace : Workspace) : Prop
    extends Entered workspace.hierarchy.files.size workspace where
  listed : Listed [] workspace.hierarchy

/-- What is known of a built hierarchy and its model. -/
structure Built (built : Workspace) : Prop where
  steady : Steady built
  required : ∀ id ∈ built.model.parcelIds,
    (built.model.parcelAt id).included = false →
      id ∈ built.model.checks.required
  sorted : ∀ id, built.model.ListsParentsFirst id

variable {workspace : Workspace} {files : FileSystem} {bound : Nat}

/-! ## Steps on the model -/

theorem extendModel_ends {Id : Type} {add : Model → Except Parcels.Error (Id × Model)}
    {onResult : Id → Workspace → Prop}
    (hadd : ∀ id after, add workspace.model = .ok (id, after) →
      onResult id { workspace with model := after }) :
    Ends (extendModel add workspace) onResult (fun _ _ => True) := by
  unfold extendModel
  cases hrun : add workspace.model with
  | error error => trivial
  | ok extended => exact hadd extended.1 extended.2 hrun

theorem onModel_ends {Result : Type} {action : Action Model Result}
    {onResult : Result → Workspace → Prop}
    (haction : Ends (action workspace.model)
      (fun result after => onResult result { workspace with model := after })
      (fun _ _ => True)) :
    Ends (onModel action workspace) onResult (fun _ _ => True) := by
  unfold onModel
  cases hrun : action workspace.model with
  | error error after => trivial
  | ok result after =>
      rw [hrun] at haction
      exact haction

theorem discovered_ends (dir : Path) (extension : String) :
    Ends (discovered files dir extension workspace)
      (fun paths after => after = workspace ∧ files.discover dir extension = .ok paths)
      (fun _ _ => True) := by
  unfold discovered
  cases files.discover dir extension with
  | error failure => trivial
  | ok paths => exact ⟨rfl, rfl⟩

/-! ## Specs -/

/-- Parcels may join between files. -/
theorem Steady.register {parcel : Parcel} (hsteady : Steady workspace)
    (hparcel : parcel.WellFormed) :
    Ends (extendModel (·.register parcel) workspace) (fun _ => Steady)
      (fun _ _ => True) := by
  refine extendModel_ends fun newId after hregister => ?_
  have hrun : (Call.register parcel).run workspace.model = .ok () after := by
    change Call.extend (·.register parcel) workspace.model = _
    simp only [Call.extend, hregister]
  have hunfailed := hsteady.unfailed.next (.register parcel)
    ⟨hparcel, trivial⟩ hrun
  have hafter := (register_eq_ok hregister).2.1
  have hclasses : after.classIds = workspace.model.classIds := by
    rw [hafter]
    rfl
  exact ⟨⟨hunfailed, hclasses ▸ hsteady.placed, hclasses ▸ hsteady.known⟩,
    hsteady.listed⟩

/-- What every registration keeps, the specs of a directory keep. -/
theorem readSpecs_keeps {Invariant : Workspace → Prop}
    (hregister : ∀ workspace parcel, Invariant workspace → parcel.WellFormed →
      Ends (extendModel (·.register parcel) workspace) (fun _ => Invariant)
        (fun _ _ => True))
    (hstart : Invariant workspace) (dir : Path) (included : Bool) :
    Ends (readSpecs files dir included workspace) (fun _ => Invariant)
      (fun _ _ => True) := by
  apply Ends.andThen (discovered_ends dir "cfp")
  rintro paths _ ⟨rfl, -⟩
  refine Ends.forM (fun _ => Invariant) (fun _ path _ between _ hbefore => ?_) hstart
  unfold readSpec
  cases files.readText path with
  | error failure => trivial
  | ok text =>
      cases hparcel : Parcel.fromSpec text path included with
      | error error => simp only [hparcel]; trivial
      | ok parcel =>
          simp only [hparcel]
          rw [bind_get]
          split
          · exact hbefore
          · exact Ends.andThen (hregister between parcel hbefore
              (Parcel.wellFormed_of_fromSpec hparcel)) fun _ _ hafter => hafter

/-! ## Headers -/

theorem parcelNamed_ends (name : String) (path : Path) :
    Ends (parcelNamed name path workspace)
      (fun id after => after = workspace ∧ workspace.model.parcelNamed? name = some id)
      (fun _ _ => True) := by
  unfold parcelNamed
  rw [bind_get]
  cases hnamed : workspace.model.parcelNamed? name with
  | none => trivial
  | some id => exact ⟨rfl, rfl⟩

/-- What a declaration of the file that will stand at `index` becomes, and the
workspace it leaves. -/
inductive Adds (index : Nat) (included : Bool) (before : Workspace) :
    Decl → Block → Workspace → Prop where
  | parcel {name : String} {id : ParcelId}
      (named : before.model.parcelNamed? name = some id) :
      Adds index included before (.parcelStatement name) (.parcel id) before
  | member {parcel : String} {header : ClassHeader} {owner : ParcelId} {newId : ClassId}
      {after : Model} (named : before.model.parcelNamed? parcel = some owner)
      (kept : (before.model.parcelAt owner).included = true → included = true)
      (added : before.model.addClass owner header = .ok (newId, after)) :
      Adds index included before (.classHeader parcel header) (.member newId)
        { before with
          model := after
          hierarchy := { before.hierarchy with
            fileIndices := (newId, index) :: before.hierarchy.fileIndices } }
  | cBlock {code : String} : Adds index included before (.cBlock code) (.cBlock code) before

/-- A declaration adds its block, or the build fails. -/
theorem addDecl_ends (index : Nat) (path : Path) (included : Bool) (decl : Decl) :
    Ends (addDecl index path included decl workspace)
      (Adds index included workspace decl) (fun _ _ => True) := by
  cases decl with
  | parcelStatement name =>
      apply Ends.andThen (parcelNamed_ends name path)
      rintro id _ ⟨rfl, hnamed⟩
      exact .parcel hnamed
  | classHeader parcel header =>
      apply Ends.andThen (parcelNamed_ends parcel path)
      rintro id between ⟨rfl, hnamed⟩
      rw [bind_get]
      split
      · trivial
      · next hkept =>
        refine Ends.bind (onModel_ends ?_)
        rw [declareClass_eq]
        cases hadd : between.model.addClass id header with
        | error error => trivial
        | ok added => exact .member hnamed (fun hincluded => by simpa [hincluded] using hkept) hadd
  | cBlock code => exact .cBlock

/-- A file is read declaration by declaration before it joins the others. -/
theorem addFile_ends {path pathPart : Path} {included : Bool} {text : String}
    {onResult : Unit → Workspace → Prop}
    (During : List Decl → List Block → Workspace → Prop) (hstart : During [] [] workspace)
    (hstep : ∀ done blocks before decl block after, During done blocks before →
      Adds workspace.hierarchy.files.size included before decl block after →
        During (done ++ [decl]) (blocks ++ [block]) after)
    (hend : ∀ decls blocks read, Header.scan text = .ok decls → During decls blocks read →
      onResult () { read with
        hierarchy := { read.hierarchy with
          files := read.hierarchy.files.push
            { path := path, pathPart := pathPart, included := included
              parcel := firstParcel? blocks, blocks := blocks } } }) :
    Ends (addFile path pathPart included text workspace) onResult (fun _ _ => True) := by
  unfold addFile
  rw [bind_get]
  cases hscan : Header.scan text with
  | error error => trivial
  | ok decls =>
      refine Ends.andThen (Ends.mapM During (fun done decl _ blocks before _ hbefore => ?_)
        hstart) fun blocks read hread => hend decls blocks read hscan hread
      exact (addDecl_ends _ path included decl).imp fun block after hadds =>
        hstep done blocks before decl block after hbefore hadds

/-- A class joins and is entered in the file at `index`. -/
theorem Entered.addClass {index : Nat} {id : ParcelId} {header : ClassHeader}
    {newId : ClassId} {after : Model} (hentered : Entered (index + 1) workspace)
    (hid : id ∈ workspace.model.parcelIds)
    (hadd : workspace.model.addClass id header = .ok (newId, after)) :
    Entered (index + 1)
      { workspace with
        model := after
        hierarchy := { workspace.hierarchy with
          fileIndices := (newId, index) :: workspace.hierarchy.fileIndices } } := by
  have hrun : (Call.addClass id header).run workspace.model = .ok () after := by
    rw [Call.run_addClass]
    simp only [Call.extend, hadd]
  obtain ⟨rfl, _, hdeclares⟩ := addClass_eq_ok hid hadd
  refine ⟨hentered.unfailed.next (.addClass id header) ⟨hid, trivial⟩ hrun,
    fun member hmember => ?_, fun member place hplace => ?_⟩
  · rw [List.lookup_cons]
    rcases hdeclares.mem_classIds_iff.mp hmember with hold | rfl
    · have hne : member ≠ workspace.model.nextClassId := fun heq =>
        workspace.model.nextClassId_not_mem (heq ▸ hold)
      rw [beq_false_of_ne hne]
      exact hentered.placed member hold
    · exact ⟨index, by simp⟩
  · rw [List.lookup_cons] at hplace
    rw [hdeclares.mem_classIds_iff]
    by_cases hlast : member = workspace.model.nextClassId
    · obtain rfl : index = place := by simpa [hlast] using hplace
      exact ⟨.inr hlast, Nat.lt_succ_self index⟩
    · rw [beq_false_of_ne hlast] at hplace
      exact ⟨.inl (hentered.known member place hplace).1,
        (hentered.known member place hplace).2⟩

/-- The last block read declares the class that is entered with it. -/
theorem Listed.enter {hierarchy : Hierarchy} {blocks : List Block} {id : ClassId}
    (hlisted : Listed blocks hierarchy)
    (hnew : hierarchy.fileIndices.lookup id = none) :
    Listed (blocks ++ [.member id])
      { hierarchy with
        fileIndices := (id, hierarchy.files.size) :: hierarchy.fileIndices } := by
  intro other index
  have hbefore := hlisted other index
  rw [List.lookup_cons]
  by_cases hsame : other = id
  · subst hsame
    rw [hnew] at hbefore
    simp only [reduceCtorEq, false_iff, not_or] at hbefore
    have hplace : some hierarchy.files.size = some index ↔
        index = hierarchy.files.size := by rw [Option.some_inj, eq_comm]
    simp [hbefore.1, hplace, Block.member?]
  · rw [beq_false_of_ne hsame, hbefore]
    simp [Block.member?, hsame]

theorem Listed.skip {hierarchy : Hierarchy} {blocks : List Block} {block : Block}
    (hlisted : Listed blocks hierarchy) (hblock : block.member? = none) :
    Listed (blocks ++ [block]) hierarchy := by
  intro id index
  rw [hlisted id index]
  simp [hblock]

theorem Listed.push {hierarchy : Hierarchy} {file : SourceFile}
    (hlisted : Listed file.blocks hierarchy) :
    Listed [] { hierarchy with files := hierarchy.files.push file } := by
  intro id index
  rw [hlisted id index]
  simp only [Array.getElem?_push]
  by_cases hlast : index = hierarchy.files.size
  · simp [hlast, SourceFile.classes]
  · simp [hlast]

theorem Reading.adds {index : Nat} {included : Bool} {blocks : List Block} {decl : Decl}
    {block : Block} {after : Workspace} (hreading : Reading index blocks workspace)
    (hadds : Adds index included workspace decl block after) :
    Reading index (blocks ++ [block]) after := by
  obtain ⟨hentered, rfl, hlisted⟩ := hreading
  cases hadds with
  | parcel => exact ⟨hentered, rfl, hlisted.skip rfl⟩
  | cBlock => exact ⟨hentered, rfl, hlisted.skip rfl⟩
  | member hnamed _ hadd =>
      have hid := (parcelNamed?_eq_some hnamed).1
      -- Only known classes have a place, so the new one has none yet.
      refine ⟨hentered.addClass hid hadd, rfl, hlisted.enter ?_⟩
      rw [(addClass_eq_ok hid hadd).1, Option.eq_none_iff_forall_ne_some]
      intro place hplace
      exact workspace.model.nextClassId_not_mem (hentered.known _ place hplace).1

/-- A file is read whole before it is counted. -/
theorem Steady.addFile (hsteady : Steady workspace) (path pathPart : Path)
    (included : Bool) (text : String) :
    Ends (Hierarchy.addFile path pathPart included text workspace)
      (fun _ => Steady) (fun _ _ => True) := by
  refine addFile_ends (fun _ => Reading workspace.hierarchy.files.size) ?_
    (fun _ _ _ _ _ _ hreading hadds => hreading.adds hadds) ?_
  · refine ⟨⟨hsteady.unfailed, hsteady.placed, fun id index hplace => ?_⟩, rfl,
      hsteady.listed⟩
    obtain ⟨hid, hindex⟩ := hsteady.known id index hplace
    exact ⟨hid, Nat.lt_succ_of_lt hindex⟩
  · rintro decls blocks read - ⟨hentered, hsize, hlisted⟩
    refine ⟨⟨hentered.unfailed, hentered.placed, fun id index hplace => ?_⟩, hlisted.push⟩
    obtain ⟨hid, hindex⟩ := hentered.known id index hplace
    rw [← hsize] at hindex
    exact ⟨hid, by simpa using hindex⟩

/-- What every file that is read keeps, the headers of a directory keep. -/
theorem readHeaders_keeps {Invariant : Workspace → Prop}
    (hfile : ∀ workspace path pathPart included text, Invariant workspace →
      files.readText path = .ok text →
        Ends (addFile path pathPart included text workspace) (fun _ => Invariant)
          (fun _ _ => True))
    (hstart : Invariant workspace) (seen : Seen) (dir : Path × Bool) :
    Ends (readHeaders files seen dir workspace) (fun _ => Invariant)
      (fun _ _ => True) := by
  apply Ends.andThen (discovered_ends dir.1 "cfh")
  rintro paths _ ⟨rfl, -⟩
  refine Ends.foldlM (fun _ _ => Invariant)
    (fun _ path _ seen between _ hbefore => ?_) hstart
  unfold readHeader
  cases seen.lookup (partBelow dir.1 path) with
  | some first =>
      cases hincluded : dir.2 with
      | true => exact hbefore
      | false => trivial
  | none =>
      cases hread : files.readText path with
      | error failure => trivial
      | ok text =>
          apply Ends.andThen (hfile between path _ dir.2 text hbefore hread)
          exact fun _ _ hafter => hafter

/-- A build registers parcels, then reads files, then resolves the model. -/
theorem build_keeps (Invariant : Workspace → Prop) {onResult : Unit → Workspace → Prop}
    (hregister : ∀ workspace parcel, Invariant workspace → parcel.WellFormed →
      Ends (extendModel (·.register parcel) workspace) (fun _ => Invariant)
        (fun _ _ => True))
    (hfile : ∀ workspace path pathPart included text, Invariant workspace →
      files.readText path = .ok text →
        Ends (addFile path pathPart included text workspace) (fun _ => Invariant)
          (fun _ _ => True))
    (hresolve : ∀ workspace, Invariant workspace →
      Ends (onModel resolve workspace) onResult (fun _ _ => True))
    (hstart : Invariant workspace) :
    Ends (build files workspace) onResult (fun _ _ => True) := by
  refine Ends.bind (Ends.andThen (Ends.forM (fun _ => Invariant) ?_ hstart) ?_)
  · exact fun _ dir _ _ _ hbefore => readSpecs_keeps hregister hbefore dir.1 dir.2
  · intro _ between hspecs
    refine Ends.andThen (Ends.foldlM (fun _ _ => Invariant) ?_ hspecs)
      fun _ read hread => hresolve read hread
    exact fun _ dir _ seen _ _ hbefore => readHeaders_keeps hfile hbefore seen dir

/-! ## The whole build -/

theorem foldl_eq_of_kept {Kept : Type} (kept : Hierarchy → Kept)
    (addDir : Hierarchy → Path → Hierarchy)
    (hadd : ∀ hierarchy dir, kept (addDir hierarchy dir) = kept hierarchy)
    (dirs : List Path) (hierarchy : Hierarchy) :
    kept (dirs.foldl addDir hierarchy) = kept hierarchy := by
  induction dirs generalizing hierarchy with
  | nil => rfl
  | cons dir dirs ih => rw [List.foldl_cons, ih, hadd]

theorem newHierarchy_empty (dest : Path) (sourceDirs includeDirs : List Path) :
    (newHierarchy dest sourceDirs includeDirs).fileIndices = [] ∧
      (newHierarchy dest sourceDirs includeDirs).files = #[] := by
  constructor
  · rw [newHierarchy, foldl_eq_of_kept fileIndices addIncludeDir fun _ _ => rfl,
      foldl_eq_of_kept fileIndices addSourceDir fun _ _ => rfl]
  · rw [newHierarchy, foldl_eq_of_kept files addIncludeDir fun _ _ => rfl,
      foldl_eq_of_kept files addSourceDir fun _ _ => rfl]

theorem steady_newHierarchy (dest : Path) (sourceDirs includeDirs : List Path) :
    Steady ⟨newHierarchy dest sourceDirs includeDirs, {}⟩ := by
  obtain ⟨hindices, hfiles⟩ := newHierarchy_empty dest sourceDirs includeDirs
  refine ⟨⟨.empty, by simp, fun id index hplace => ?_⟩, fun id index => ?_⟩
  · change (newHierarchy dest sourceDirs includeDirs).fileIndices.lookup id = _
      at hplace
    rw [hindices] at hplace
    cases hplace
  · simp [hindices, hfiles]

/-- What is resolved after all files are read is built. -/
theorem Steady.built (hsteady : Steady workspace) {after : Model}
    (hresolved : Resolved workspace.model after) :
    Built { workspace with model := after } := by
  have hclasses : after.classIds = workspace.model.classIds := by
    rw [classIds, classIds, hresolved.classes_eq]
  have hentered : Entered workspace.hierarchy.files.size
      { workspace with model := after } :=
    ⟨hresolved.unfailed, hclasses ▸ hsteady.placed, hclasses ▸ hsteady.known⟩
  exact ⟨⟨hentered, hsteady.listed⟩, hresolved.required, hresolved.sorted⟩

theorem Steady.resolve (hsteady : Steady workspace) :
    Ends (onModel Hierarchy.resolve workspace) (fun _ => Built) (fun _ _ => True) :=
  onModel_ends ((resolve_ends hsteady.unfailed).imp fun _ _ hresolved =>
    hsteady.built hresolved)

/-- A build that ends well leaves a built hierarchy. -/
theorem Steady.build (hsteady : Steady workspace) (files : FileSystem) :
    Ends (Hierarchy.build files workspace) (fun _ => Built) (fun _ _ => True) :=
  build_keeps Steady (fun _ _ hbefore hparcel => hbefore.register hparcel)
    (fun _ path pathPart included text hbefore _ =>
      hbefore.addFile path pathPart included text)
    (fun _ hread => hread.resolve) hsteady

theorem Builds.built {dest : Path} {sourceDirs includeDirs : List Path}
    {built : Workspace} (hbuilds : Builds files dest sourceDirs includeDirs built) :
    Built built :=
  ((steady_newHierarchy dest sourceDirs includeDirs).build files).of_eq_ok hbuilds

theorem Built.sound {built : Workspace} (hbuilt : Built built) : built.model.Sound :=
  hbuilt.steady.unfailed.reachable.sound

end Parcels.Hierarchy
