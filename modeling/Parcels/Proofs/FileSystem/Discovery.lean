import Mathlib.Data.List.Flatten
import Parcels.FileSystem.Discovery
import Parcels.Proofs.Action
import Parcels.Proofs.FileSystem.Trees
import Parcels.Proofs.Text.Bytes

/-!
# What discovery finds

In a well-formed tree, the names that lead from a directory to a file below it
lead to no other file.  Discovery finds each file with the extension once, at
the path that these names spell.
-/

namespace Parcels.FileSystem

open Parcels.Path (EntryName components_foldl_join)

variable {files : FileSystem} {node : Node} {dir path : Path}
variable {entries : List (RawText × Node)} {extension name : RawText} {names : List RawText}

/-! ## Hidden names -/

/-- A name is hidden if it is a text and its first byte is a dot. -/
theorem isHidden_iff : isHidden name = true ↔
    name.head? = some RawText.dot ∧ ∃ text, name = RawText.ofText text := by
  simp only [isHidden, Option.any_eq_true, RawText.text?_eq_some_iff, beq_iff_eq]
  constructor
  · rintro ⟨text, rfl, hdot⟩
    exact ⟨Text.head?_ofText_eq_dot_iff.mpr hdot, text, rfl⟩
  · rintro ⟨hdot, text, rfl⟩
    exact ⟨text, rfl, Text.head?_ofText_eq_dot_iff.mp hdot⟩

theorem isHidden_eq_false (hname : name.head? ≠ some RawText.dot) : isHidden name = false := by
  rw [← Bool.not_eq_true, isHidden_iff]
  exact fun hhidden => hname hhidden.1

/-! ## Files below a node -/

/-- What an entry adds to the files of its directory. -/
def foundAt (extension : RawText) (dir : Path) (entry : RawText × Node) : List (List RawText) :=
  if isHidden entry.1 then []
  else if entry.2.isDirectory && fits (dir.join entry.1) then
    (entry.2.filesBelow extension (dir.join entry.1)).map (entry.1 :: ·)
  else if Path.extension? entry.1 = some extension then [[entry.1]]
  else []

theorem entryFiles_eq_flatMap (extension : RawText) (dir : Path)
    (entries : List (RawText × Node)) :
    entryFiles extension dir entries = entries.flatMap (foundAt extension dir) := by
  induction entries with
  | nil => rfl
  | cons entry entries ih =>
      obtain ⟨name, node⟩ := entry
      rw [entryFiles, ih, List.flatMap_cons]
      rfl

theorem Node.filesBelow_file {contents : Contents} {modified : Int} :
    Node.filesBelow extension path (.file contents modified) = [] := by
  rw [Node.filesBelow]

/-- A visible entry adds itself, if it has the extension and is not found to be
a directory, or what lies below it. -/
theorem mem_foundAt_iff {entry : RawText × Node} :
    names ∈ foundAt extension dir entry ↔ isHidden entry.1 = false ∧
      ((¬ (entry.2.isDirectory = true ∧ fits (dir.join entry.1) = true) ∧ names = [entry.1] ∧
          Path.extension? entry.1 = some extension) ∨
        fits (dir.join entry.1) = true ∧
          ∃ below ∈ entry.2.filesBelow extension (dir.join entry.1), names = entry.1 :: below) := by
  obtain ⟨name, node⟩ := entry
  rw [foundAt]
  cases hhidden : isHidden name with
  | true => simp
  | false =>
      cases hfits : fits (dir.join name) with
      | false => simp [and_comm]
      | true =>
          cases node with
          | file contents modified => simp [Node.filesBelow_file, Node.isDirectory, and_comm]
          | directory entries modified => simp [Node.isDirectory, eq_comm]

theorem head?_of_mem_foundAt {entry : RawText × Node}
    (hnames : names ∈ foundAt extension dir entry) : names.head? = some entry.1 := by
  obtain ⟨-, ⟨-, rfl, -⟩ | ⟨-, below, -, rfl⟩⟩ := mem_foundAt_iff.mp hnames
  · rfl
  · rfl

theorem nodup_foundAt {entry : RawText × Node}
    (hbelow : (entry.2.filesBelow extension (dir.join entry.1)).Nodup) :
    (foundAt extension dir entry).Nodup := by
  unfold foundAt
  split
  · exact List.nodup_nil
  split
  · exact hbelow.map List.cons_injective
  split
  · exact List.nodup_singleton _
  · exact List.nodup_nil

/-- No two entries lead to the same file, since no two share a name. -/
theorem Node.WellFormed.nodup_filesBelow (hnode : node.WellFormed) (extension : RawText)
    (dir : Path) : (node.filesBelow extension dir).Nodup := by
  induction hnode generalizing dir with
  | file => exact filesBelow_file ▸ List.nodup_nil
  | @directory entries modified apart named below ih =>
      rw [Node.filesBelow, entryFiles_eq_flatMap, List.nodup_flatMap]
      refine ⟨fun entry hentry => nodup_foundAt (ih entry hentry _), ?_⟩
      refine (List.pairwise_map.mp apart).imp fun {first second} hne names hfirst hsecond => ?_
      exact hne (Option.some.inj
        ((head?_of_mem_foundAt hfirst).symm.trans (head?_of_mem_foundAt hsecond)))

/-- Names, none of them hidden, that end in one with the extension. -/
structure Discoverable (extension : RawText) (names : List RawText) : Prop where
  named : ∀ name ∈ names, EntryName name
  visible : ∀ name ∈ names, isHidden name = false
  last : ∃ last, names.getLast? = some last ∧ Path.extension? last = some extension

theorem Discoverable.cons (hnames : Discoverable extension names) (hname : EntryName name)
    (hvisible : isHidden name = false) : Discoverable extension (name :: names) where
  named := List.forall_mem_cons.mpr ⟨hname, hnames.named⟩
  visible := List.forall_mem_cons.mpr ⟨hvisible, hnames.visible⟩
  last := by
    obtain ⟨last, hlast, hextension⟩ := hnames.last
    exact ⟨last, by simp [List.getLast?_cons, hlast], hextension⟩

/-- What is found in a well-formed node goes by proper names that are not hidden. -/
theorem Node.WellFormed.discoverable (hnode : node.WellFormed)
    (hnames : names ∈ node.filesBelow extension dir) : Discoverable extension names := by
  induction hnode generalizing names dir with
  | file => simp [filesBelow_file] at hnames
  | directory apart named below ih =>
      rw [Node.filesBelow, entryFiles_eq_flatMap] at hnames
      obtain ⟨entry, hentry, hfound⟩ := List.mem_flatMap.mp hnames
      obtain ⟨hvisible, ⟨-, rfl, hextension⟩ | ⟨-, rest, hrest, rfl⟩⟩ :=
        mem_foundAt_iff.mp hfound
      · exact ⟨by simpa using named entry hentry, by simpa using hvisible,
          entry.1, rfl, hextension⟩
      · exact (ih entry hentry hrest).cons (named entry hentry) hvisible

/-! ## Discovered paths -/

variable {paths : List Path}

theorem discover_eq_ok (hdiscover : files.discover dir extension = .ok paths) :
    ∃ node, files.lookup dir = .ok node ∧ paths.Perm
      ((node.filesBelow extension dir).map fun names => names.foldl Path.join dir) := by
  unfold discover at hdiscover
  obtain ⟨node, hlookup, hfound⟩ := ok_of_bind hdiscover
  cases node with
  | file => cases hfound
  | directory entries modified =>
      cases hfound
      exact ⟨_, hlookup, Sorting.sort_perm _ _⟩

/-- A path is discovered below its directory, by names of which the last has
the extension. -/
theorem WellFormed.exists_names (hfiles : files.WellFormed)
    (hdiscover : files.discover dir extension = .ok paths) (hpath : path ∈ paths) :
    ∃ names, Discoverable extension names ∧
      path.components = dir.components ++ names.map .name := by
  obtain ⟨node, hlookup, hperm⟩ := discover_eq_ok hdiscover
  obtain ⟨names, hnames, rfl⟩ := List.mem_map.mp (hperm.mem_iff.mp hpath)
  have hdiscoverable := (hfiles.lookup hlookup).discoverable hnames
  exact ⟨names, hdiscoverable, components_foldl_join dir hdiscoverable.named⟩

/-- No path is discovered twice, however it is spelled. -/
theorem WellFormed.nodup_discover (hfiles : files.WellFormed)
    (hdiscover : files.discover dir extension = .ok paths) :
    (paths.map Path.components).Nodup := by
  obtain ⟨node, hlookup, hperm⟩ := discover_eq_ok hdiscover
  have hnode := hfiles.lookup hlookup
  rw [(hperm.map Path.components).nodup_iff, List.map_map]
  refine (hnode.nodup_filesBelow extension dir).map_on fun names hnames others hothers heq => ?_
  have hnamed := (hnode.discoverable hnames).named
  have hnamed' := (hnode.discoverable hothers).named
  simp only [Function.comp_apply, components_foldl_join dir hnamed,
    components_foldl_join dir hnamed'] at heq
  exact Path.map_name_injective (List.append_cancel_left heq)

end Parcels.FileSystem
