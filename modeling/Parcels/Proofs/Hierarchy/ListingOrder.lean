import Parcels.Hierarchy.Build
import Parcels.Proofs.FileSystem.Relisting

/-!
# Builds and the order of directory entries

A build comes upon files only by discovery.  In whichever order the system
lists directories, parcels are registered and headers are read in the same
order.  They are those that no dot hides, unless a dot stands before bytes that
are not UTF-8 or a directory lies too deep.
-/

namespace Parcels.Hierarchy

open Parcels.FileSystem

variable {files relisted : FileSystem}

theorem discovered_eq (hrelisted : files.Relisted relisted) (hfiles : files.WellFormed) :
    discovered relisted = discovered files := by
  funext dir extension
  rw [discovered, discovered, hrelisted.discover_eq hfiles]

theorem readSpecs_eq (hrelisted : files.Relisted relisted) (hfiles : files.WellFormed) :
    readSpecs relisted = readSpecs files := by
  have hread : readSpec relisted = readSpec files := by
    funext included path
    rw [readSpec, readSpec, hrelisted.readText_eq]
  funext dir included
  rw [readSpecs, readSpecs, discovered_eq hrelisted hfiles, hread]

theorem readHeaders_eq (hrelisted : files.Relisted relisted) (hfiles : files.WellFormed) :
    readHeaders relisted = readHeaders files := by
  have hread : readHeader relisted = readHeader files := by
    funext dir included seen path
    simp only [readHeader, hrelisted.readText_eq]
  funext seen dir
  rw [readHeaders, readHeaders, discovered_eq hrelisted hfiles, hread]

/-- A build leaves the same workspace, or fails in the same way. -/
theorem build_eq (hrelisted : files.Relisted relisted) (hfiles : files.WellFormed) :
    build relisted = build files := by
  rw [build, build, readSpecs_eq hrelisted hfiles, readHeaders_eq hrelisted hfiles]

/-- Discovery finds exactly what a directory lists, once and in order, and this is
what no dot hides just when nothing misleads it.  With the entries of
directories listed in another order, it finds the same, and so does every
build. -/
theorem discover_shows_iff (hfiles : files.WellFormed) {dir : Path}
    {entries : List (RawText × Node)} {modified : Int}
    (hdir : files.lookup dir = .ok (.directory entries modified)) (extension : RawText) :
    ∃ paths, files.discover dir extension = .ok paths ∧
      Listing ((Node.directory entries modified).Lists dir extension) dir paths ∧
      (Listing ((Node.directory entries modified).Shows extension) dir paths ↔
        (Node.directory entries modified).Plain dir extension) ∧
      ∀ relisted, files.Relisted relisted →
        relisted.discover dir extension = .ok paths ∧ build relisted = build files := by
  obtain ⟨paths, hpaths, hlisting⟩ := hfiles.discover_listing hdir extension
  refine ⟨paths, hpaths, hlisting, (hfiles.lookup hdir).shows_listing_iff hlisting, ?_⟩
  intro relisted hrelisted
  refine ⟨?_, build_eq hrelisted hfiles⟩
  rw [hrelisted.discover_eq hfiles, hpaths]

/-! ## A source dir listed in two orders -/

def blankFile : Node :=
  .file (.text "") 0

def animals : List (RawText × Node) :=
  [("Util.cfh", blankFile), (".Ignored.cfh", blankFile), ("Dog.cfh", blankFile)]

/-- A dot, a byte that belongs to no character, and `a.cfh`. -/
def brokenName : RawText :=
  [0x2E, 0xFF, 0x61, 0x2E, 0x63, 0x66, 0x68]

/-- `Animal` comes before `Animal.cfh` although a dot comes before a slash.
`Old.cfh` is a directory. -/
def sourcesWith (animals : List (RawText × Node)) : List (RawText × Node) :=
  [("Animal.cfh", blankFile), ("notes.txt", blankFile),
    (".hidden", .directory [("Secret.cfh", blankFile)] 0),
    ("Animal", .directory animals 0), ("Old.cfh", .directory [("Cat.cfh", blankFile)] 0),
    (brokenName, blankFile)]

def diskWith (sources : List (RawText × Node)) : FileSystem :=
  { root := .directory [("src", .directory sources 0)] 0 }

def disk : FileSystem :=
  diskWith (sourcesWith animals)

def shuffledDisk : FileSystem :=
  diskWith (sourcesWith animals.reverse).reverse

theorem wellFormed_blankFiles {entries : List (RawText × Node)}
    (hapart : (entries.map Prod.fst).Nodup)
    (hnamed : ∀ entry ∈ entries, Path.EntryName entry.1)
    (hblank : ∀ entry ∈ entries, entry.2 = blankFile) :
    (Node.directory entries 0).WellFormed :=
  .directory hapart hnamed fun entry hentry => hblank entry hentry ▸ .file

theorem wellFormed_animals : (Node.directory animals 0).WellFormed :=
  wellFormed_blankFiles (by decide) (by decide) (by simp [animals])

theorem wellFormed_sources : (Node.directory (sourcesWith animals) 0).WellFormed := by
  refine .directory (by decide) (by decide) ?_
  simp only [sourcesWith, List.forall_mem_cons]
  exact ⟨.file, .file, wellFormed_blankFiles (by decide) (by decide) (by simp),
    wellFormed_animals, wellFormed_blankFiles (by decide) (by decide) (by simp),
    .file, List.forall_mem_nil _⟩

theorem wellFormed_disk : disk.WellFormed :=
  .directory (by decide) (by decide) (by simpa using wellFormed_sources)

theorem lookup_disk : disk.lookup ⟨"src"⟩ = .ok (.directory (sourcesWith animals) 0) := rfl

theorem relisted_sources : (Node.directory (sourcesWith animals) 0).Relisted
    (.directory (sourcesWith animals.reverse).reverse 0) := by
  refine wellFormed_sources.listedAnew
    (fun entry => if entry.1 = "Animal" then .directory animals.reverse 0 else entry.2) ?_
    (List.reverse_perm _)
  cases wellFormed_sources with
  | directory apart named below =>
      simp only [sourcesWith, List.forall_mem_cons] at below ⊢
      exact ⟨below.1.relisted_refl, below.2.1.relisted_refl, below.2.2.1.relisted_refl,
        wellFormed_animals.relisted_of_perm (List.reverse_perm animals),
        below.2.2.2.2.1.relisted_refl, below.2.2.2.2.2.1.relisted_refl, List.forall_mem_nil _⟩

theorem relisted_disk : disk.Relisted shuffledDisk where
  root := wellFormed_disk.listedAnew
    (fun _ => .directory (sourcesWith animals.reverse).reverse 0)
    (by simpa using relisted_sources) (List.Perm.refl _)
  workingDirectory := rfl

/-- The dot of the broken name does not hide it. -/
theorem sources_not_plain :
    ¬ (Node.directory (sourcesWith animals) 0).Plain ⟨"src"⟩ "cfh" := by
  intro hplain
  have hentry : (brokenName, blankFile) ∈ sourcesWith animals := by simp [sourcesWith]
  have hvisible : ∀ name ∈ [brokenName], isHidden name = false := by decide
  have hextended : Extended "cfh" [brokenName] :=
    extended_singleton_iff.mpr (by decide)
  have hlists : (Node.directory (sourcesWith animals) 0).Lists ⟨"src"⟩ "cfh" [brokenName] :=
    ⟨⟨blankFile, .inside hentry .here, by simp [blankFile, Node.isDirectory]⟩,
      reached_singleton, hvisible, hextended⟩
  exact hplain.undotted _ hlists brokenName List.mem_cons_self rfl

theorem disk_discovered :
    disk.WellFormed ∧ disk.lookup ⟨"src"⟩ = .ok (.directory (sourcesWith animals) 0) ∧
    disk.Relisted shuffledDisk ∧
    ∃ paths, Listing ((Node.directory (sourcesWith animals) 0).Lists ⟨"src"⟩ "cfh") ⟨"src"⟩ paths ∧
      paths.map Path.text = ["src/.\ufffda.cfh", "src/Animal/Dog.cfh", "src/Animal/Util.cfh",
        "src/Animal.cfh", "src/Old.cfh/Cat.cfh"] ∧
      ¬ Listing ((Node.directory (sourcesWith animals) 0).Shows "cfh") ⟨"src"⟩ paths ∧
      shuffledDisk.discover ⟨"src"⟩ "cfh" = .ok paths ∧ build shuffledDisk = build disk := by
  have htexts : (disk.discover ⟨"src"⟩ "cfh").toOption.map (List.map Path.text) =
      some ["src/.\ufffda.cfh", "src/Animal/Dog.cfh", "src/Animal/Util.cfh", "src/Animal.cfh",
        "src/Old.cfh/Cat.cfh"] := by
    decide +kernel
  obtain ⟨paths, hpaths, hlisting, hshows, hsame⟩ :=
    discover_shows_iff wellFormed_disk lookup_disk "cfh"
  obtain ⟨hrelisted, hbuild⟩ := hsame shuffledDisk relisted_disk
  refine ⟨wellFormed_disk, lookup_disk, relisted_disk, paths, hlisting, ?_,
    hshows.not.mpr sources_not_plain, hrelisted, hbuild⟩
  simpa [hpaths, Except.toOption] using htexts

/-! ## A burrow that is too deep -/

/-- The longest name that there is. -/
def longName : RawText :=
  List.replicate nameLimit 0x61

/-- A header below directories, each with one entry. -/
def burrow : Nat → Node
  | 0 => .directory [("Mole.cfh", blankFile)] 0
  | depth + 1 => .directory [(longName, burrow depth)] 0

def wayDown (depth : Nat) : List RawText :=
  List.replicate depth longName ++ [RawText.ofText "Mole.cfh"]

theorem entryName_longName : Path.EntryName longName := by
  decide

theorem wellFormed_burrow (depth : Nat) : (burrow depth).WellFormed := by
  induction depth with
  | zero => exact wellFormed_blankFiles (by decide) (by decide) (by simp)
  | succ depth ih =>
      exact .directory (List.nodup_singleton _) (by simpa using entryName_longName)
        (by simpa using ih)

theorem burrow_shows (depth : Nat) : (burrow depth).Shows "cfh" (wayDown depth) where
  file := by
    refine ⟨.text "", 0, ?_⟩
    induction depth with
    | zero => exact .inside List.mem_cons_self .here
    | succ depth ih => exact .inside List.mem_cons_self ih
  undotted := by
    intro name hname
    rcases List.mem_append.mp hname with hdeep | hmole
    · obtain rfl := List.eq_of_mem_replicate hdeep
      decide
    · obtain rfl := List.mem_singleton.mp hmole
      decide
  extended := ⟨List.replicate depth longName, "Mole", rfl, by decide, by decide⟩

/-- No path fits that is made of more bytes than the system takes. -/
theorem fits_foldl_join_eq_false {names : List RawText} (dir : Path)
    (hnames : ∀ name ∈ names, Path.EntryName name)
    (hlong : pathLimit < names.flatten.length) :
    fits (names.foldl Path.join dir) = false := by
  have hlength := Path.length_foldl_join dir hnames
  rw [fits, decide_eq_false_iff_not]
  omega

/-- The directory of the header is seventeen names away. -/
theorem burrow_not_plain : ¬ (burrow 17).Plain ⟨"."⟩ "cfh" := by
  intro hplain
  have hfits := hplain.reached _ (burrow_shows 17) (List.replicate 17 longName) _ rfl
    (List.cons_ne_nil _ _) (List.cons_ne_nil _ _)
  have hnames : ∀ name ∈ List.replicate 17 longName, Path.EntryName name := fun name hname =>
    List.eq_of_mem_replicate hname ▸ entryName_longName
  have hlong : pathLimit < (List.replicate 17 longName).flatten.length := by
    rw [longName, List.flatten_replicate_replicate, List.length_replicate]
    decide
  rw [fits_foldl_join_eq_false ⟨"."⟩ hnames hlong] at hfits
  cases hfits

/-! ## Files that are hidden and not found -/

/-- Discovery finds what no dot hides, once and in order. -/
def FindsShown (files : FileSystem) (dir : Path) (extension : RawText) : Prop :=
  ∀ entries modified, files.lookup dir = .ok (.directory entries modified) →
    ∃ paths, files.discover dir extension = .ok paths ∧
      Listing ((Node.directory entries modified).Shows extension) dir paths

theorem FindsShown.plain {dir : Path} {entries : List (RawText × Node)} {modified : Int}
    {extension : RawText} (hfinds : FindsShown files dir extension) (hfiles : files.WellFormed)
    (hdir : files.lookup dir = .ok (.directory entries modified)) :
    (Node.directory entries modified).Plain dir extension := by
  obtain ⟨paths, hpaths, hshows⟩ := hfinds entries modified hdir
  obtain ⟨found, hfound, hlisting⟩ := hfiles.discover_listing hdir extension
  obtain rfl : paths = found := Except.ok.inj (hpaths.symm.trans hfound)
  exact ((hfiles.lookup hdir).shows_listing_iff hlisting).mp hshows

/-- A dot in first place does not always hide a file, and what no dot hides is
not always found. -/
theorem discover_not_finds_shown :
    (¬ ∀ (files : FileSystem) (dir : Path) (extension : RawText), files.WellFormed →
      FindsShown files dir extension) ∧
    ¬ FindsShown { root := burrow 17 } ⟨"."⟩ "cfh" := by
  constructor
  · intro hfinds
    exact sources_not_plain
      ((hfinds disk ⟨"src"⟩ "cfh" wellFormed_disk).plain wellFormed_disk lookup_disk)
  · intro hfinds
    exact burrow_not_plain (hfinds.plain (wellFormed_burrow 17) rfl)

end Parcels.Hierarchy
