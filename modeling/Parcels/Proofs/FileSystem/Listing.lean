import Parcels.Proofs.FileSystem.Discovery
import Parcels.Proofs.Order
import Parcels.Proofs.Path.Order

/-!
# What a discovery lists

A discovery lists the files with an extension that are not hidden, at any
depth, each of them once and in the order of the names that lead to them.  A
dot in first place hides a name if the name is UTF-8, and a directory is passed
over if its path is too long for the system.
-/

namespace Parcels.FileSystem

open Parcels.Path (EntryName)
open RawText (dot)

variable {files : FileSystem} {node target child : Node} {dir : Path}
variable {entries : List (RawText × Node)} {extension name : RawText}
variable {names others : List RawText} {modified : Int}

/-! ## Names that lead to files -/

/-- Entries of these names, each in the directory before it, lead to a node. -/
inductive Node.LeadsTo : Node → List RawText → Node → Prop where
  | here {node : Node} : LeadsTo node [] node
  | inside {entries : List (RawText × Node)} {modified : Int} {name : RawText} {child : Node}
      {names : List RawText} {target : Node} (hentry : (name, child) ∈ entries)
      (hrest : child.LeadsTo names target) :
      LeadsTo (.directory entries modified) (name :: names) target

/-- The last of the names has the extension. -/
def Extended (extension : RawText) (names : List RawText) : Prop :=
  ∃ directories stem, names = directories ++ [stem ++ dot :: extension] ∧
    stem ≠ [] ∧ dot ∉ extension

/-- The system takes the paths of all directories on the way from `dir`. -/
def Reached (dir : Path) (names : List RawText) : Prop :=
  ∀ above below, names = above ++ below → above ≠ [] → below ≠ [] →
    fits (above.foldl Path.join dir) = true

/-- The names lead to what has the extension and is not found to be a
directory.  Neither it nor a directory on the way is hidden. -/
structure Node.Lists (node : Node) (dir : Path) (extension : RawText) (names : List RawText) :
    Prop where
  found : ∃ target, node.LeadsTo names target ∧
    ¬ (target.isDirectory = true ∧ fits (names.foldl Path.join dir) = true)
  reached : Reached dir names
  visible : ∀ name ∈ names, isHidden name = false
  extended : Extended extension names

/-- The names lead to a file with the extension, and none of them starts with
a dot. -/
structure Node.Shows (node : Node) (extension : RawText) (names : List RawText) : Prop where
  file : ∃ contents modified, node.LeadsTo names (.file contents modified)
  undotted : ∀ name ∈ names, name.head? ≠ some dot
  extended : Extended extension names

theorem Extended.ne_nil (hextended : Extended extension names) : names ≠ [] := by
  obtain ⟨directories, stem, rfl, -⟩ := hextended
  simp

theorem extended_singleton_iff :
    Extended extension [name] ↔ Path.extension? name = some extension := by
  rw [Path.extension?_eq_some_iff]
  constructor
  · rintro ⟨directories, stem, hnames, hstem⟩
    obtain ⟨rfl, rfl⟩ : directories = [] ∧ stem ++ dot :: extension = name := by
      simpa [List.singleton_eq_append_iff] using hnames
    exact ⟨stem, rfl, hstem⟩
  · rintro ⟨stem, rfl, hstem⟩
    exact ⟨[], stem, rfl, hstem⟩

theorem extended_cons_iff (hnames : names ≠ []) :
    Extended extension (name :: names) ↔ Extended extension names := by
  constructor
  · rintro ⟨directories, stem, hsplit, hstem⟩
    cases directories with
    | nil => exact absurd (List.cons.inj hsplit).2 hnames
    | cons directory directories => exact ⟨directories, stem, (List.cons.inj hsplit).2, hstem⟩
  · rintro ⟨directories, stem, rfl, hstem⟩
    exact ⟨name :: directories, stem, rfl, hstem⟩

theorem reached_singleton : Reached dir [name] := by
  intro above below hsplit habove hbelow
  have hlength := congrArg List.length hsplit
  have := List.length_pos_iff.mpr habove
  have := List.length_pos_iff.mpr hbelow
  simp at hlength
  omega

theorem reached_cons_iff (hnames : names ≠ []) :
    Reached dir (name :: names) ↔ fits (dir.join name) = true ∧ Reached (dir.join name) names := by
  constructor
  · intro hreached
    refine ⟨hreached [name] names rfl (List.cons_ne_nil _ _) hnames, ?_⟩
    rintro above below rfl - hbelow
    exact hreached (name :: above) below rfl (List.cons_ne_nil _ _) hbelow
  · rintro ⟨hfits, hreached⟩ above below hsplit habove hbelow
    obtain ⟨first, others, rfl⟩ := List.exists_cons_of_ne_nil habove
    obtain ⟨rfl, rfl⟩ := List.cons.inj hsplit
    by_cases hothers : others = []
    · rw [hothers]
      exact hfits
    · exact hreached others below rfl hothers hbelow

theorem Node.leadsTo_cons_iff :
    (Node.directory entries modified).LeadsTo (name :: names) target ↔
      ∃ child, (name, child) ∈ entries ∧ child.LeadsTo names target := by
  constructor
  · rintro ⟨⟩
    exact ⟨_, ‹_›, ‹_›⟩
  · rintro ⟨child, hentry, hrest⟩
    exact .inside hentry hrest

theorem Node.leadsTo_nil_iff : node.LeadsTo [] target ↔ target = node := by
  constructor
  · rintro ⟨⟩
    rfl
  · rintro rfl
    exact .here

/-- A directory lists a visible entry itself, if it has the extension and is not
found to be a directory, and what lies below it. -/
theorem Node.directory_lists_cons_iff :
    (Node.directory entries modified).Lists dir extension (name :: names) ↔
      ∃ child, (name, child) ∈ entries ∧ isHidden name = false ∧
        ((¬ (child.isDirectory = true ∧ fits (dir.join name) = true) ∧ names = [] ∧
            Path.extension? name = some extension) ∨
          fits (dir.join name) = true ∧ child.Lists (dir.join name) extension names) := by
  by_cases hnames : names = []
  · subst hnames
    constructor
    · rintro ⟨⟨target, hleads, hfound⟩, -, hvisible, hextended⟩
      obtain ⟨child, hentry, hhere⟩ := leadsTo_cons_iff.mp hleads
      obtain rfl := leadsTo_nil_iff.mp hhere
      exact ⟨target, hentry, by simpa using hvisible, .inl ⟨hfound, rfl,
        extended_singleton_iff.mp hextended⟩⟩
    · rintro ⟨child, hentry, hvisible, ⟨hfound, -, hextension⟩ | ⟨-, hlists⟩⟩
      · exact ⟨⟨child, .inside hentry .here, hfound⟩, reached_singleton, by simpa using hvisible,
          extended_singleton_iff.mpr hextension⟩
      · exact absurd rfl hlists.extended.ne_nil
  · constructor
    · rintro ⟨⟨target, hleads, hfound⟩, hreached, hvisible, hextended⟩
      obtain ⟨child, hentry, hrest⟩ := leadsTo_cons_iff.mp hleads
      obtain ⟨hfits, hreached⟩ := (reached_cons_iff hnames).mp hreached
      obtain ⟨hname, hvisible⟩ := List.forall_mem_cons.mp hvisible
      exact ⟨child, hentry, hname, .inr ⟨hfits, ⟨target, hrest, hfound⟩, hreached, hvisible,
        (extended_cons_iff hnames).mp hextended⟩⟩
    · rintro ⟨child, hentry, hname, ⟨-, hnil, -⟩ | ⟨hfits, hlists⟩⟩
      · exact absurd hnil hnames
      · obtain ⟨⟨target, hrest, hfound⟩, hreached, hvisible, hextended⟩ := hlists
        exact ⟨⟨target, .inside hentry hrest, hfound⟩,
          (reached_cons_iff hnames).mpr ⟨hfits, hreached⟩,
          List.forall_mem_cons.mpr ⟨hname, hvisible⟩,
          (extended_cons_iff hnames).mpr hextended⟩

theorem Node.file_not_lists {contents : Contents} :
    ¬ (Node.file contents modified).Lists dir extension names := by
  intro hlists
  obtain ⟨target, hleads, -⟩ := hlists.found
  cases hleads
  exact hlists.extended.ne_nil rfl

theorem Node.nil_not_mem_filesBelow : [] ∉ node.filesBelow extension dir := by
  intro hempty
  cases node with
  | file contents modified => simp [filesBelow_file] at hempty
  | directory entries modified =>
      rw [Node.filesBelow, entryFiles_eq_flatMap] at hempty
      obtain ⟨entry, -, hfound⟩ := List.mem_flatMap.mp hempty
      cases head?_of_mem_foundAt hfound

/-- What is found in a directory goes by the same rule as what it lists. -/
theorem Node.cons_mem_directory_filesBelow_iff :
    name :: names ∈ (Node.directory entries modified).filesBelow extension dir ↔
      ∃ child, (name, child) ∈ entries ∧ isHidden name = false ∧
        ((¬ (child.isDirectory = true ∧ fits (dir.join name) = true) ∧ names = [] ∧
            Path.extension? name = some extension) ∨
          fits (dir.join name) = true ∧ names ∈ child.filesBelow extension (dir.join name)) := by
  rw [Node.filesBelow, entryFiles_eq_flatMap, List.mem_flatMap]
  constructor
  · rintro ⟨⟨first, child⟩, hentry, hfound⟩
    obtain ⟨hvisible, ⟨hfile, hnames, hextension⟩ | ⟨hfits, below, hbelow, hnames⟩⟩ :=
      mem_foundAt_iff.mp hfound
    · obtain ⟨rfl, rfl⟩ := List.cons.inj hnames
      exact ⟨child, hentry, hvisible, .inl ⟨hfile, rfl, hextension⟩⟩
    · obtain ⟨rfl, rfl⟩ := List.cons.inj hnames
      exact ⟨child, hentry, hvisible, .inr ⟨hfits, hbelow⟩⟩
  · rintro ⟨child, hentry, hvisible, hfound⟩
    refine ⟨(name, child), hentry, mem_foundAt_iff.mpr ⟨hvisible, ?_⟩⟩
    rcases hfound with ⟨hfile, rfl, hextension⟩ | ⟨hfits, hbelow⟩
    · exact .inl ⟨hfile, rfl, hextension⟩
    · exact .inr ⟨hfits, names, hbelow, rfl⟩

/-- What is found below a node is what it lists. -/
theorem Node.mem_filesBelow_iff :
    names ∈ node.filesBelow extension dir ↔ node.Lists dir extension names := by
  induction names generalizing node dir with
  | nil => exact iff_of_false nil_not_mem_filesBelow fun hlists => hlists.extended.ne_nil rfl
  | cons name names ih =>
      cases node with
      | file contents modified =>
          exact iff_of_false (by simp [filesBelow_file]) file_not_lists
      | directory entries modified =>
          simp only [cons_mem_directory_filesBelow_iff, directory_lists_cons_iff, ih]

/-! ## Discovered paths -/

variable {path : Path} {paths : List Path} {listed shown : List RawText → Prop}

/-- Paths are those that the listed names lead to from a directory, each once,
in the order of paths.  Since all of them lie below the one directory, this is
the lexicographic order of the names. -/
structure Listing (listed : List RawText → Prop) (dir : Path) (paths : List Path) : Prop where
  mem_iff : ∀ path, path ∈ paths ↔ ∃ names, listed names ∧ path = names.foldl Path.join dir
  once : (paths.map Path.components).Nodup
  increasing : paths.Pairwise fun earlier later =>
    Path.compareComponents earlier.components later.components = .lt
  by_names : ∀ names others, listed names → listed others →
    (Precedes paths (names.foldl Path.join dir) (others.foldl Path.join dir) ↔ names < others)

theorem Node.WellFormed.named_of_leadsTo (hnode : node.WellFormed)
    (hleads : node.LeadsTo names target) : ∀ name ∈ names, EntryName name := by
  induction hleads with
  | here => exact List.forall_mem_nil _
  | inside hentry hrest ih =>
      cases hnode with
      | directory apart named below =>
          exact List.forall_mem_cons.mpr ⟨named _ hentry, ih (below _ hentry)⟩

theorem Node.WellFormed.components_foldl_join (hnode : node.WellFormed)
    (hleads : node.LeadsTo names target) (dir : Path) :
    (names.foldl Path.join dir).components = dir.components ++ names.map .name :=
  Path.components_foldl_join dir (hnode.named_of_leadsTo hleads)

/-- Paths that hold what the node lists, once and in order, are in the order
of names. -/
theorem Node.WellFormed.precedes_iff (hnode : node.WellFormed)
    (hleads : ∀ names, listed names → ∃ target, node.LeadsTo names target)
    (hmem : ∀ names, listed names → names.foldl Path.join dir ∈ paths)
    (hincreasing : paths.Pairwise fun earlier later =>
      Path.compareComponents earlier.components later.components = .lt)
    (hnames : listed names) (hothers : listed others) :
    Precedes paths (names.foldl Path.join dir) (others.foldl Path.join dir) ↔ names < others := by
  obtain ⟨target, hleads₁⟩ := hleads names hnames
  obtain ⟨target', hleads₂⟩ := hleads others hothers
  rw [Precedes.iff_of_pairwise hincreasing Path.compareComponents_asymm (hmem names hnames)
      (hmem others hothers),
    hnode.components_foldl_join hleads₁, hnode.components_foldl_join hleads₂,
    Path.compareComponents_below_eq_lt_iff]

/-- In a directory that exists, discovery finds what the directory lists. -/
theorem WellFormed.discover_listing (hfiles : files.WellFormed)
    (hdir : files.lookup dir = .ok (.directory entries modified)) (extension : RawText) :
    ∃ paths, files.discover dir extension = .ok paths ∧
      Listing ((Node.directory entries modified).Lists dir extension) dir paths := by
  have hnode := hfiles.lookup hdir
  let found := (Node.filesBelow extension dir (.directory entries modified)).map
    fun names => names.foldl Path.join dir
  have hdiscover : files.discover dir extension = .ok (Sorting.sort Path.mayPrecede found) := by
    rw [discover, hdir]
    rfl
  have hperm := Sorting.sort_perm Path.mayPrecede found
  have hmem : ∀ path, path ∈ Sorting.sort Path.mayPrecede found ↔ ∃ names,
      (Node.directory entries modified).Lists dir extension names ∧
        path = names.foldl Path.join dir := by
    intro path
    simp only [hperm.mem_iff, found, List.mem_map, Node.mem_filesBelow_iff, eq_comm]
  have honce := hfiles.nodup_discover hdiscover
  have hincreasing := Path.pairwise_sort ((hperm.map Path.components).nodup_iff.mp honce)
  refine ⟨_, hdiscover, hmem, honce, hincreasing, fun names others => ?_⟩
  exact hnode.precedes_iff (fun names hnames => hnames.found.imp fun _ => And.left)
    (fun names hnames => (hmem _).mpr ⟨names, hnames, rfl⟩) hincreasing

/-- What is listed leaves one way to list it. -/
theorem Listing.unique {more : List Path} (hsame : ∀ names, listed names ↔ shown names)
    (hpaths : Listing listed dir paths) (hmore : Listing shown dir more) : paths = more := by
  have hperm : paths.Perm more :=
    (List.perm_ext_iff_of_nodup hpaths.once.of_map hmore.once.of_map).mpr fun path => by
      simp only [hpaths.mem_iff, hmore.mem_iff, hsame]
  refine hperm.eq_of_pairwise (fun left right _ _ hforward hback => ?_) hpaths.increasing
    hmore.increasing
  exact absurd hback (Path.compareComponents_asymm left right hforward)

/-- In a well-formed tree, a path is told by the names that lead to it, so one
list of paths cannot hold two things that are listed. -/
theorem Node.WellFormed.listed_iff (hnode : node.WellFormed)
    (hlisted : ∀ names, listed names → ∃ target, node.LeadsTo names target)
    (hshown : ∀ names, shown names → ∃ target, node.LeadsTo names target)
    (hpaths : Listing listed dir paths) :
    Listing shown dir paths ↔ ∀ names, listed names ↔ shown names := by
  have hinside : ∀ first second : List RawText → Prop,
      (∀ names, first names → ∃ target, node.LeadsTo names target) →
      (∀ names, second names → ∃ target, node.LeadsTo names target) →
      Listing first dir paths → Listing second dir paths →
      ∀ names, first names → second names := by
    intro first second hfirst hsecond hpaths hmore names hnames
    obtain ⟨others, hothers, heq⟩ :=
      (hmore.mem_iff _).mp ((hpaths.mem_iff _).mpr ⟨names, hnames, rfl⟩)
    obtain ⟨target, hleads⟩ := hfirst names hnames
    obtain ⟨target', hleads'⟩ := hsecond others hothers
    have hcomponents := congrArg Path.components heq
    rw [hnode.components_foldl_join hleads, hnode.components_foldl_join hleads'] at hcomponents
    exact Path.map_name_injective (List.append_cancel_left hcomponents) ▸ hothers
  constructor
  · intro hmore names
    exact ⟨hinside _ _ hlisted hshown hpaths hmore names,
      hinside _ _ hshown hlisted hmore hpaths names⟩
  · intro hsame
    obtain rfl : listed = shown := funext fun names => propext (hsame names)
    exact hpaths

/-! ## Dots and long paths -/

/-- Nothing misleads a discovery: what it lists are files at names that do not
start with a dot, and it comes to every directory that holds such a file. -/
structure Node.Plain (node : Node) (dir : Path) (extension : RawText) : Prop where
  undotted : ∀ names, node.Lists dir extension names → ∀ name ∈ names, name.head? ≠ some dot
  file : ∀ names, node.Lists dir extension names →
    ∃ contents modified, node.LeadsTo names (.file contents modified)
  reached : ∀ names, node.Shows extension names → Reached dir names

/-- A directory lists what no dot hides just when nothing misleads a discovery. -/
theorem Node.lists_iff_shows_iff :
    (∀ names, node.Lists dir extension names ↔ node.Shows extension names) ↔
      node.Plain dir extension := by
  constructor
  · intro hsame
    exact ⟨fun names hlists => ((hsame names).mp hlists).undotted,
      fun names hlists => ((hsame names).mp hlists).file,
      fun names hshows => ((hsame names).mpr hshows).reached⟩
  · intro hplain names
    constructor
    · intro hlists
      exact ⟨hplain.file names hlists, hplain.undotted names hlists, hlists.extended⟩
    · intro hshows
      obtain ⟨contents, modified, hleads⟩ := hshows.file
      refine ⟨⟨_, hleads, by simp [isDirectory]⟩, hplain.reached names hshows, ?_,
        hshows.extended⟩
      exact fun name hname => isHidden_eq_false (hshows.undotted name hname)

/-- The paths discovered are those of the files that no dot hides, once and in
order, just when nothing misleads the discovery. -/
theorem Node.WellFormed.shows_listing_iff (hnode : node.WellFormed)
    (hpaths : Listing (node.Lists dir extension) dir paths) :
    Listing (node.Shows extension) dir paths ↔ node.Plain dir extension := by
  rw [hnode.listed_iff (fun names hnames => hnames.found.imp fun _ => And.left)
    (fun names hnames => ?_) hpaths, lists_iff_shows_iff]
  obtain ⟨contents, modified, hleads⟩ := hnames.file
  exact ⟨_, hleads⟩

end Parcels.FileSystem
