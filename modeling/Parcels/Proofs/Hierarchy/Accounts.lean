import Parcels.Proofs.Hierarchy.Built
import Parcels.Proofs.Model.FoundLinks
import Parcels.Proofs.Model.SetUp

/-!
# What a build accounts for

A built hierarchy accounts for everything in its model.  The files list all
classes once each, in the order of their ids, and the blocks of a file are its
declarations one by one.  Every class that declares a parent is linked to what
the name finds in the end, and all that a parcel requires is there.
-/

namespace Parcels.Hierarchy

open Model

variable {files : FileSystem} {workspace : Workspace}

/-! ## Blocks and declarations -/

/-- The block that a declaration of a file has become. -/
inductive Enters (model : Model) (included : Bool) : Decl → Block → Prop where
  | parcel {name : String} {id : ParcelId}
      (named : model.parcelNamed? name = some id) :
      Enters model included (.parcelStatement name) (.parcel id)
  | member {parcel : String} {header : ClassHeader} {owner : ParcelId} {id : ClassId}
      (known : id ∈ model.classIds) (named : model.parcelNamed? parcel = some owner)
      (declared : model.classAt id = header.inParcel owner id)
      (kept : (model.parcelAt owner).included = true → included = true) :
      Enters model included (.classHeader parcel header) (.member id)
  | cBlock {code : String} : Enters model included (.cBlock code) (.cBlock code)

/-- The blocks of a file are the declarations in its text, in order. -/
def Outlined (files : FileSystem) (model : Model) (file : SourceFile) : Prop :=
  ∃ text decls, files.readText file.path = .ok text ∧ Header.scan text = .ok decls ∧
    List.Forall₂ (Enters model file.included) decls file.blocks

/-- What has been entered stays so while parcels and classes join. -/
structure Grows (before after : Model) : Prop where
  named : ∀ name id, before.parcelNamed? name = some id →
    after.parcelNamed? name = some id ∧
      (after.parcelAt id).toParcel = (before.parcelAt id).toParcel
  classes : ∀ id ∈ before.classIds,
    id ∈ after.classIds ∧ after.classAt id = before.classAt id

variable {before after : Model}

theorem Enters.grow {included : Bool} {decl : Decl} {block : Block}
    (henters : Enters before included decl block) (hgrows : Grows before after) :
    Enters after included decl block := by
  cases henters with
  | parcel hnamed => exact .parcel (hgrows.named _ _ hnamed).1
  | member hknown hnamed hdeclared hkept =>
      obtain ⟨hknown', hclass⟩ := hgrows.classes _ hknown
      obtain ⟨hnamed', hparcel⟩ := hgrows.named _ _ hnamed
      exact .member hknown' hnamed' (hclass.trans hdeclared) (hparcel ▸ hkept)
  | cBlock => exact .cBlock

theorem Outlined.grow {file : SourceFile} (houtlined : Outlined files before file)
    (hgrows : Grows before after) : Outlined files after file := by
  obtain ⟨text, decls, hread, hscan, henters⟩ := houtlined
  exact ⟨text, decls, hread, hscan, henters.imp fun _ _ henters => henters.grow hgrows⟩

theorem Grows.of_eq (hspecs : after.specs = before.specs)
    (hclasses : after.classes = before.classes) : Grows before after where
  named := fun name id hnamed =>
    ⟨(parcelNamed?_congr hspecs name).trans hnamed, toParcel_congr hspecs id⟩
  classes := fun id hid => by
    rw [classIds, hclasses, classAt_congr hclasses]
    exact ⟨hid, rfl⟩

theorem Grows.registers {parcel : RegisteredParcel}
    (hjoined : after.parcels = before.parcels.push parcel)
    (hclasses : after.classes = before.classes) : Grows before after where
  named := fun name id hnamed => by
    refine ⟨parcelNamed?_of_joined hjoined hnamed, ?_⟩
    rw [parcelAt_of_joined hjoined (parcelNamed?_eq_some hnamed).1]
  classes := fun id hid => by
    rw [classIds, hclasses, classAt_congr hclasses]
    exact ⟨hid, rfl⟩

theorem Grows.declares {id : ParcelId} {added : Class}
    (hdeclares : Declares before after id added) : Grows before after where
  named := fun name id hnamed =>
    ⟨(parcelNamed?_congr hdeclares.specs_eq name).trans hnamed,
      toParcel_congr hdeclares.specs_eq id⟩
  classes := fun _ hid =>
    ⟨hdeclares.mem_classIds_iff.mpr (.inl hid), hdeclares.classAt_eq hid⟩

/-! ## Reading files -/

/-- The files so far account for the classes so far, and nothing is linked. -/
structure Filed (files : FileSystem) (workspace : Workspace) : Prop where
  links_eq : workspace.model.links = []
  outlined : ∀ file ∈ workspace.hierarchy.files.toList,
    Outlined files workspace.model file
  in_order : workspace.hierarchy.files.toList.flatMap SourceFile.classes =
    workspace.model.classIds

/-- Of the file being read, the declarations `done` have become `blocks`. -/
structure Recorded (files : FileSystem) (included : Bool) (done : List Decl)
    (blocks : List Block) (workspace : Workspace) : Prop where
  links_eq : workspace.model.links = []
  outlined : ∀ file ∈ workspace.hierarchy.files.toList,
    Outlined files workspace.model file
  entered : List.Forall₂ (Enters workspace.model included) done blocks
  in_order : workspace.hierarchy.files.toList.flatMap SourceFile.classes ++
    blocks.filterMap Block.member? = workspace.model.classIds

theorem Filed.register (hfiled : Filed files workspace) (parcel : Parcel) :
    Ends (extendModel (·.register parcel) workspace) (fun _ => Filed files)
      (fun _ _ => True) := by
  refine extendModel_ends fun newId after hregister => ?_
  have hafter := (register_eq_ok hregister).2.1
  have hjoined : after.parcels = workspace.model.parcels.push { parcel with } := by
    rw [hafter]
  have hgrows : Grows workspace.model after := .registers hjoined (by rw [hafter])
  refine ⟨?_, fun file hfile => (hfiled.outlined file hfile).grow hgrows, ?_⟩
  · rw [hafter]
    exact hfiled.links_eq
  · rw [hfiled.in_order, hafter]
    rfl

section Recording

variable {included : Bool} {done : List Decl} {blocks : List Block} {decl : Decl}

/-- A declaration that is no class leaves the workspace as it is. -/
theorem Recorded.snoc {block : Block} (hrecorded : Recorded files included done blocks workspace)
    (henters : Enters workspace.model included decl block) (hblock : block.member? = none) :
    Recorded files included (done ++ [decl]) (blocks ++ [block]) workspace where
  links_eq := hrecorded.links_eq
  outlined := hrecorded.outlined
  entered := List.rel_append hrecorded.entered (.cons henters .nil)
  in_order := by simpa [hblock] using hrecorded.in_order

/-- A new class has the next id, so it comes last in the order of ids too. -/
theorem Recorded.adds {index : Nat} {block : Block} {after : Workspace}
    (hrecorded : Recorded files included done blocks workspace)
    (hadds : Adds index included workspace decl block after) :
    Recorded files included (done ++ [decl]) (blocks ++ [block]) after := by
  cases hadds with
  | parcel hnamed => exact hrecorded.snoc (.parcel hnamed) rfl
  | cBlock => exact hrecorded.snoc .cBlock rfl
  | @member parcel header owner _ after hnamed hkept hadd =>
      obtain ⟨rfl, -, hdeclares⟩ := addClass_eq_ok (parcelNamed?_eq_some hnamed).1 hadd
      have hgrows := Grows.declares hdeclares
      have hnew : Enters after included (.classHeader parcel header)
          (.member workspace.model.nextClassId) := by
        obtain ⟨hnamed', hparcel⟩ := hgrows.named _ _ hnamed
        exact .member (hdeclares.mem_classIds_iff.mpr (.inr rfl)) hnamed'
          hdeclares.classAt_new (hparcel ▸ hkept)
      have hentered := hrecorded.entered.imp fun _ _ henters => henters.grow hgrows
      refine ⟨hdeclares.links_eq.trans hrecorded.links_eq,
        fun file hfile => (hrecorded.outlined file hfile).grow hgrows,
        List.rel_append hentered (.cons hnew .nil), ?_⟩
      change _ = after.classIds
      rw [hdeclares.classIds_eq, ← hrecorded.in_order]
      simp [Block.member?]

end Recording

/-- A file that is read is filed with its declarations. -/
theorem Filed.addFile (hfiled : Filed files workspace) {path : Path} {text : String}
    (hread : files.readText path = .ok text) (pathPart : Path) (included : Bool) :
    Ends (Hierarchy.addFile path pathPart included text workspace)
      (fun _ => Filed files) (fun _ _ => True) := by
  refine addFile_ends (Recorded files included)
    ⟨hfiled.links_eq, hfiled.outlined, .nil, by simpa using hfiled.in_order⟩
    (fun _ _ _ _ _ _ hrecorded hadds => hrecorded.adds hadds) ?_
  intro decls blocks read hscan hrecorded
  refine ⟨hrecorded.links_eq, fun file hfile => ?_, ?_⟩
  · rw [Array.toList_push] at hfile
    rcases List.mem_append.mp hfile with hold | hlast
    · exact hrecorded.outlined file hold
    · obtain rfl := List.mem_singleton.mp hlast
      exact ⟨text, decls, hread, hscan, hrecorded.entered⟩
  · change (read.hierarchy.files.push _).toList.flatMap _ = read.model.classIds
    rw [Array.toList_push, List.flatMap_append, List.flatMap_singleton]
    exact hrecorded.in_order

/-! ## Resolving -/

/-- The parcels `done` lack no links, and every link is as it was found. -/
structure Linked (model : Model) (done : List ParcelId) : Prop where
  full : ∀ id ∈ done, model.FullyLinked id
  found : model.LinkedAsFound

variable {model : Model} {done : List ParcelId} {id : ParcelId}

theorem Linked.skip (hlinked : Linked model done)
    (hempty : (model.classesOf id).isEmpty = true) : Linked model (done ++ [id]) where
  full := by
    refine List.forall_mem_append.mpr ⟨hlinked.full, List.forall_mem_singleton.mpr ?_⟩
    simp [FullyLinked, List.isEmpty_iff.mp hempty]
  found := hlinked.found

theorem Linked.sort (hlinked : Linked model done)
    (hsorting : SortedAfterChecks before done model) (hid : id ∈ before.parcelIds) :
    Ends (connectAndSort id model) (fun _ after => Linked after (done ++ [id]))
      (fun _ _ => True) := by
  obtain ⟨checked, hchecked, hsorted⟩ := hsorting
  have hsound := hsorted.unfailed.reachable.sound
  have hid' : id ∈ model.parcelIds := by
    rw [parcelIds_congr hsorted.specs_eq, hchecked.parcelIds_eq]
    exact hid
  refine Ends.of_ok fun _ after hrun => ⟨?_, ?_⟩
  · refine List.forall_mem_append.mpr ⟨fun other hother => ?_,
      List.forall_mem_singleton.mpr (hsound.staysSorted hid' hrun).fully_linked⟩
    have hstays : model.StaysSorted other :=
      ⟨hsorted.sorted other hother, hlinked.full other hother⟩
    have hcall : (leftBy ((Call.connectAndSort id).run model)).StaysSorted other :=
      hstays.call hsound hid' (by simp) (by simp)
    rw [show (Call.connectAndSort id).run model = .ok () after from hrun] at hcall
    exact hcall.fully_linked
  · obtain ⟨linked, hlinks, hcomplete, rfl⟩ :=
      (connectAndSort_ends model id).of_eq_ok hrun
    have hlinkedSound := hsound.makesLinks hlinks
    have hafter := hsound.effect (.sorted hlinks hcomplete)
    exact (hlinked.found.makesLinks hsound.partitioned hlinks).congr
      hlinkedSound.partitioned hafter.partitioned (specs_setClasses _ _ _) rfl rfl

/-- The parcels `done` have been linked and sorted after all checks had passed. -/
def LinkedAfterChecks (before : Model) (done : List ParcelId) (model : Model) : Prop :=
  SortedAfterChecks before done model ∧ Linked model done

theorem LinkedAfterChecks.start {checked : Model} (hlinks : before.links = [])
    (hchecked : Checked before checked before.parcelIds) :
    LinkedAfterChecks before [] checked := by
  refine ⟨.start hchecked, by simp, ?_⟩
  rw [LinkedAsFound, hchecked.frame, hlinks]
  exact List.forall_mem_nil _

theorem LinkedAfterChecks.sort (hlinked : LinkedAfterChecks before done model)
    (hid : id ∈ before.parcelIds) :
    Ends (connectAndSort id model)
      (fun _ => LinkedAfterChecks before (done ++ [id])) (fun _ _ => True) := by
  exact (hlinked.1.sort hid).both (hlinked.2.sort hlinked.1 hid)

/-- In a resolved model every class is linked to what its parent name finds. -/
theorem resolve_links (hunfailed : before.Unfailed) (hlinks : before.links = []) :
    Ends (resolve before)
      (fun _ after => Resolved before after ∧ Linked after before.parcelIds)
      (fun _ _ => True) := by
  have hends := resolve_keeps hunfailed
    (fun _ hchecked => LinkedAfterChecks.start hlinks hchecked)
    (fun _ _ _ hlinked hempty => ⟨hlinked.1.skip hempty, hlinked.2.skip hempty⟩)
    (fun _ _ _ hlinked hid => hlinked.sort hid)
  apply hends.imp
  rintro _ after ⟨⟨checked, hchecked, hsorted⟩, hlinked⟩
  exact ⟨hsorted.resolved hchecked, hlinked⟩

/-! ## The whole build -/

/-- What a built hierarchy accounts for. -/
structure Accounted (files : FileSystem) (built : Workspace) : Prop where
  once : ∀ id ∈ built.model.classIds,
    (built.hierarchy.files.toList.flatMap SourceFile.blocks).count (.member id) = 1
  placed : ∀ id ∈ built.model.classIds, ∃ file ∈ built.hierarchy.files,
    built.hierarchy.fileOf? id = some file ∧ .member id ∈ file.blocks
  outlined : ∀ file ∈ built.hierarchy.files, Outlined files built.model file
  included : ∀ id ∈ built.model.classIds, built.model.isIncluded id = true →
    ∃ file, built.hierarchy.fileOf? id = some file ∧ file.included = true
  linked : ∀ id ∈ built.model.classIds, ∀ name,
    (built.model.classAt id).parentName = some name →
      ∃ parent, built.model.parent? id = some parent ∧
        built.model.findInScope? (built.model.owner id) name = some parent ∧
        (built.model.classAt parent).isFinal = false
  required : ∀ id ∈ built.model.parcelIds, (built.model.parcelAt id).included = false →
    ∀ other, Graph.Reaches built.model.prereqParcels id other →
      other ∈ built.model.parcelIds ∧ built.model.isRequired other = true ∧
        ∀ prereq ∈ (built.model.parcelAt other).prereqs,
          ∃ found, built.model.Satisfies prereq found ∧
            built.model.isRequired found = true

theorem member?_eq_some_iff {block : Block} {id : ClassId} :
    block.member? = some id ↔ block = .member id := by
  cases block <;> simp [Block.member?]

/-- The classes are in the files in the order of their ids, so no class is a
block twice. -/
theorem Filed.once (hfiled : Filed files workspace) {id : ClassId}
    (hid : id ∈ workspace.model.classIds) :
    (workspace.hierarchy.files.toList.flatMap SourceFile.blocks).count (.member id) = 1 := by
  have hcount := List.count_eq_one_of_mem (nodup_classIds workspace.model) hid
  have hclasses : workspace.model.classIds =
      (workspace.hierarchy.files.toList.flatMap SourceFile.blocks).filterMap
        Block.member? := by
    rw [List.filterMap_flatMap, ← hfiled.in_order]
    rfl
  rw [hclasses, List.count_filterMap] at hcount
  rw [← hcount, List.count]
  exact List.countP_congr fun block _ => by simp [member?_eq_some_iff]

theorem Steady.placed_in_file (hsteady : Steady workspace) {id : ClassId}
    (hid : id ∈ workspace.model.classIds) :
    ∃ file ∈ workspace.hierarchy.files,
      workspace.hierarchy.fileOf? id = some file ∧ .member id ∈ file.blocks := by
  obtain ⟨index, hindex⟩ := hsteady.placed id hid
  rcases (hsteady.listed id index).mp hindex with ⟨file, hfile, hmember⟩ | ⟨_, hnone⟩
  · obtain ⟨block, hblock, hid'⟩ := List.mem_filterMap.mp hmember
    obtain rfl := member?_eq_some_iff.mp hid'
    exact ⟨file, Array.mem_of_getElem? hfile,
      Option.bind_eq_some_iff.mpr ⟨index, hindex, hfile⟩, hblock⟩
  · cases hnone

theorem Enters.included {included : Bool} {decl : Decl} {id : ClassId}
    (henters : Enters model included decl (.member id))
    (hincluded : model.isIncluded id = true) : included = true := by
  cases henters with
  | member _ _ hdeclared hkept =>
      apply hkept
      rw [isIncluded, owner, hdeclared] at hincluded
      exact hincluded

theorem Outlined.included {file : SourceFile} {id : ClassId}
    (houtlined : Outlined files model file) (hblock : .member id ∈ file.blocks)
    (hincluded : model.isIncluded id = true) : file.included = true := by
  obtain ⟨_, decls, _, _, henters⟩ := houtlined
  obtain ⟨index, hindex⟩ := List.mem_iff_getElem?.mp hblock
  obtain ⟨decl, _, henters⟩ := exists_partner henters.flip hindex
  exact Enters.included henters hincluded

theorem Linked.parent_found (hlinked : Linked model model.parcelIds)
    (hsound : model.Sound) {child : ClassId} {name : String}
    (hchild : child ∈ model.classIds)
    (hdeclared : (model.classAt child).parentName = some name) :
    ∃ parent, model.parent? child = some parent ∧
      model.findInScope? (model.owner child) name = some parent ∧
      (model.classAt parent).isFinal = false :=
  hsound.parent?_eq_findInScope? hlinked.found
    (hlinked.full _ (hsound.partitioned.owner_known child hchild)) hchild hdeclared

theorem Filed.accounted (hfiled : Filed files workspace)
    (hbuilt : Built { workspace with model := after })
    (hresolved : Resolved workspace.model after)
    (hlinked : Linked after after.parcelIds) :
    Accounted files { workspace with model := after } := by
  have hsound := hbuilt.sound
  have hgrows : Grows workspace.model after :=
    .of_eq hresolved.specs_eq hresolved.classes_eq
  have hclasses : after.classIds = workspace.model.classIds := by
    rw [classIds, classIds, hresolved.classes_eq]
  have houtlined : ∀ file ∈ workspace.hierarchy.files, Outlined files after file :=
    fun file hfile => (hfiled.outlined file (Array.mem_toList_iff.mpr hfile)).grow hgrows
  exact {
    once := fun id hid => hfiled.once (hclasses ▸ hid)
    placed := fun id hid => hbuilt.steady.placed_in_file hid
    outlined := houtlined
    included := fun id hid hincluded => by
      obtain ⟨file, hfile, hfound, hblock⟩ := hbuilt.steady.placed_in_file hid
      exact ⟨file, hfound, (houtlined file hfile).included hblock hincluded⟩
    linked := fun id hid name hdeclared => hlinked.parent_found hsound hid hdeclared
    required := fun id hid hincluded other hpath =>
      hsound.settled.required_closed (hbuilt.required id hid hincluded) hpath }

/-- Once all files are filed, checks and sorts complete the account. -/
theorem Filed.resolve (hfiled : Filed files workspace) (hsteady : Steady workspace) :
    Ends (onModel Hierarchy.resolve workspace) (fun _ => Accounted files)
      (fun _ _ => True) := by
  have hlinks := resolve_links hsteady.unfailed hfiled.links_eq
  refine onModel_ends (hlinks.imp ?_)
  rintro _ after ⟨hresolved, hlinked⟩
  rw [← parcelIds_congr hresolved.specs_eq] at hlinked
  exact hfiled.accounted (hsteady.built hresolved) hresolved hlinked

theorem filed_newHierarchy (dest : Path) (sourceDirs includeDirs : List Path) :
    Filed files ⟨newHierarchy dest sourceDirs includeDirs, {}⟩ := by
  have hempty := (newHierarchy_empty dest sourceDirs includeDirs).2
  exact ⟨rfl, by simp [hempty], by simp [hempty, classIds]⟩

/-- Whatever the files hold, a build that passes accounts for all of it. -/
theorem build_accounts {dest : Path} {sourceDirs includeDirs : List Path}
    {built : Workspace} (hbuilds : Builds files dest sourceDirs includeDirs built) :
    Accounted files built := by
  have hends : Ends (build files ⟨newHierarchy dest sourceDirs includeDirs, {}⟩)
      (fun _ => Accounted files) (fun _ _ => True) := by
    refine build_keeps (fun workspace => Steady workspace ∧ Filed files workspace)
      ?_ ?_ ?_ ⟨steady_newHierarchy _ _ _, filed_newHierarchy _ _ _⟩
    · rintro workspace parcel ⟨hsteady, hfiled⟩ hparcel
      exact ((hsteady.register hparcel).and (hfiled.register parcel)).mono
        (fun _ _ hafter => hafter) fun _ _ _ => trivial
    · rintro workspace path pathPart included text ⟨hsteady, hfiled⟩ hread
      exact ((hsteady.addFile path pathPart included text).and
        (hfiled.addFile hread pathPart included)).mono
          (fun _ _ hafter => hafter) fun _ _ _ => trivial
    · rintro workspace ⟨hsteady, hfiled⟩
      exact hfiled.resolve hsteady
  exact hends.of_eq_ok hbuilds

/-! ## A class that inherits from another parcel -/

/-- The spec of `Bee`, which requires `Ant` from version 1 on. -/
def needyBeeSpec : String :=
  "\x7b\"name\": \"Bee\", \"version\": \"v2\", \"prerequisites\": \x7b\"Ant\": \"v1\"\x7d\x7d"

/-- The parcel `Bee` of the source dir requires the installed parcel `Ant`. -/
def meadow : FileSystem where
  root := .directory [
    ("src", .directory
      [("Bee.cfp", .file (.text needyBeeSpec) 0),
        ("Drone.cfh", .file (.text
          "parcel Bee; class Drone inherits Worker \x7b\x7d __C__ int x; __END_C__") 0)] 0),
    ("inc", .directory
      [("Ant.cfp", .file (.text
          "\x7b\"name\": \"Ant\", \"version\": \"v1.3\"\x7d") 0),
        ("Worker.cfh", .file (.text "parcel Ant; class Worker \x7b\x7d") 0)] 0)] 0

theorem meadow_ends :
    Ends (build meadow ⟨newHierarchy ⟨"autogen"⟩ [⟨"src"⟩] [⟨"inc"⟩], {}⟩)
      (fun _ built =>
        built.hierarchy.files.toList.map SourceFile.blocks =
          [[.parcel ⟨0⟩, .member ⟨0⟩, .cBlock " int x; "],
            [.parcel ⟨1⟩, .member ⟨1⟩]] ∧
        built.model.links = [⟨⟨0⟩, ⟨1⟩⟩] ∧
        built.model.parcelIds.filter built.model.isRequired = [⟨0⟩, ⟨1⟩])
      (fun _ _ => False) := by
  decide +kernel

theorem meadow_accounts :
    ∃ built, Builds meadow ⟨"autogen"⟩ [⟨"src"⟩] [⟨"inc"⟩] built ∧
      Accounted meadow built ∧
      built.hierarchy.files.toList.map SourceFile.blocks =
        [[.parcel ⟨0⟩, .member ⟨0⟩, .cBlock " int x; "],
          [.parcel ⟨1⟩, .member ⟨1⟩]] ∧
      built.model.links = [⟨⟨0⟩, ⟨1⟩⟩] ∧
      built.model.parcelIds.filter built.model.isRequired = [⟨0⟩, ⟨1⟩] := by
  obtain ⟨_, built, hbuilds, hblocks, hlinks, hrequired⟩ := meadow_ends.exists_ok
  exact ⟨built, hbuilds, build_accounts hbuilds, hblocks, hlinks, hrequired⟩

end Parcels.Hierarchy
