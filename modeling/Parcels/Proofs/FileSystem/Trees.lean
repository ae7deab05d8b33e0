import Mathlib.Data.List.Nodup
import Parcels.FileSystem
import Parcels.Proofs.Path

/-!
# Well-formed trees

A directory tells its entries apart by proper names.  Walking never leaves a
tree of such directories, and writing into one makes another.
-/

namespace Parcels.FileSystem

open Parcels.Path (EntryName)

variable {files : FileSystem} {node : Node} {entries : List (RawText × Node)} {name : RawText}

/-- Every directory gives its entries proper names, each name once. -/
inductive Node.WellFormed : Node → Prop where
  | file {contents : Contents} {modified : Int} : WellFormed (.file contents modified)
  | directory {entries : List (RawText × Node)} {modified : Int}
      (apart : (entries.map Prod.fst).Nodup)
      (named : ∀ entry ∈ entries, EntryName entry.1)
      (below : ∀ entry ∈ entries, entry.2.WellFormed) :
      WellFormed (.directory entries modified)

def WellFormed (files : FileSystem) : Prop :=
  files.root.WellFormed

theorem mem_of_lookup (hlookup : entries.lookup name = some node) :
    (name, node) ∈ entries := by
  obtain ⟨before, after, rfl, -⟩ := List.lookup_eq_some_iff.mp hlookup
  simp

/-- Wherever segments lead, also upwards, they stay in the tree. -/
theorem Node.WellFormed.walk {above : List Node} {segments : List RawText} {reached : Node}
    (hnode : node.WellFormed) (habove : ∀ outer ∈ above, outer.WellFormed)
    (hwalk : FileSystem.walk above node segments = .ok reached) : reached.WellFormed := by
  fun_induction FileSystem.walk above node segments with
  | case1 =>
      cases hwalk
      exact hnode
  | case2 => cases hwalk
  | case3 above entries modified segment rest hidle ih => exact ih hnode habove hwalk
  | case4 entries modified rest hidle ih => exact ih hnode habove hwalk
  | case5 entries modified rest outer outermost hidle ih =>
      obtain ⟨houter, houtermost⟩ := List.forall_mem_cons.mp habove
      exact ih houter houtermost hwalk
  | case6 => cases hwalk
  | case7 => cases hwalk
  | case8 above entries modified segment rest hidle hup hshort child hlookup ih =>
      cases hnode with
      | directory apart named below =>
          exact ih (below _ (mem_of_lookup hlookup))
            (List.forall_mem_cons.mpr ⟨.directory apart named below, habove⟩) hwalk

/-- Every node of a well-formed file system is well-formed. -/
theorem WellFormed.lookup (hfiles : files.WellFormed) {path : Path}
    (hlookup : files.lookup path = .ok node) : node.WellFormed := by
  unfold FileSystem.lookup at hlookup
  split at hlookup
  · cases hlookup
  split at hlookup
  · cases hlookup
  split at hlookup
  · exact hfiles.walk (List.forall_mem_nil _) hlookup
  · exact hfiles.walk (List.forall_mem_nil _) hlookup

/-! ## Trees that are written file by file -/

theorem map_fst_setEntry (name : RawText) (node : Node) (entries : List (RawText × Node)) :
    (setEntry name node entries).map Prod.fst =
      if name ∈ entries.map Prod.fst then entries.map Prod.fst
      else entries.map Prod.fst ++ [name] := by
  induction entries with
  | nil => rfl
  | cons entry entries ih =>
      obtain ⟨other, existing⟩ := entry
      rw [setEntry]
      by_cases hsame : other = name
      · simp [hsame]
      · rw [if_neg hsame, List.map_cons, ih]
        by_cases hname : name ∈ entries.map Prod.fst <;> simp_all [Ne.symm hsame]

theorem mem_of_mem_setEntry {entry : RawText × Node}
    (hentry : entry ∈ setEntry name node entries) :
    entry = (name, node) ∨ entry ∈ entries := by
  induction entries with
  | nil => simpa [setEntry] using hentry
  | cons first entries ih =>
      obtain ⟨other, existing⟩ := first
      rw [setEntry] at hentry
      split at hentry
      · rcases List.mem_cons.mp hentry with hnew | hold
        · exact .inl hnew
        · exact .inr (List.mem_cons_of_mem _ hold)
      · rcases List.mem_cons.mp hentry with hfirst | hrest
        · exact .inr (hfirst ▸ List.mem_cons_self)
        · exact (ih hrest).imp_right (List.mem_cons_of_mem _)

theorem Node.WellFormed.setEntry {modified : Int}
    (hdirectory : (Node.directory entries modified).WellFormed) (hname : EntryName name)
    (hnode : node.WellFormed) :
    (Node.directory (FileSystem.setEntry name node entries) modified).WellFormed := by
  cases hdirectory with
  | directory apart named below =>
      refine .directory ?_ (fun entry hentry => ?_) (fun entry hentry => ?_)
      · rw [map_fst_setEntry]
        split
        · exact apart
        · next hnew => simpa using apart.concat hnew
      · rcases mem_of_mem_setEntry hentry with rfl | hold
        · exact hname
        · exact named entry hold
      · rcases mem_of_mem_setEntry hentry with rfl | hold
        · exact hnode
        · exact below entry hold

/-- A change at one place keeps a tree well-formed. -/
theorem Node.WellFormed.update {now : Int} {change : Option Node → Node}
    {location : List RawText} {old : Option Node}
    (hchange : ∀ old : Option Node, (∀ node ∈ old, node.WellFormed) → (change old).WellFormed)
    (hlocation : ∀ name ∈ location, EntryName name) (hold : ∀ node ∈ old, node.WellFormed) :
    (Node.update now change location old).WellFormed := by
  fun_induction Node.update now change location old with
  | case1 old => exact hchange old hold
  | case2 => exact .file
  | case3 name rest entries modified ih =>
      obtain ⟨hname, hrest⟩ := List.forall_mem_cons.mp hlocation
      have hdirectory := hold _ rfl
      refine hdirectory.setEntry hname (ih hrest fun child hchild => ?_)
      cases hdirectory with
      | directory apart named below => exact below _ (mem_of_lookup hchild)
  | case4 name rest ih =>
      obtain ⟨hname, hrest⟩ := List.forall_mem_cons.mp hlocation
      exact .directory (by simp) (by simpa using hname)
        (by simpa using ih hrest (by simp))

/-- A file may be written at any location of proper names. -/
theorem WellFormed.writeFile (hfiles : files.WellFormed) {path : Path}
    (hpath : ∀ name ∈ files.location path, EntryName name) (now modified : Int)
    (contents : Contents) : (files.writeFile now path contents modified).WellFormed :=
  Node.WellFormed.update (fun _ _ => .file) hpath fun _ hroot => by
    cases hroot
    exact hfiles

theorem wellFormed_emptyDirectory (modified : Int) : (emptyDirectory modified).WellFormed :=
  .directory List.nodup_nil (List.forall_mem_nil _) (List.forall_mem_nil _)

/-- The file system that holds texts, each at its path. -/
def ofTexts (texts : List (String × String)) : FileSystem :=
  texts.foldl (fun files entry => files.writeFile 0 ⟨entry.1⟩ (.text entry.2) 0) {}

theorem wellFormed_ofTexts {texts : List (String × String)}
    (htexts : ∀ entry ∈ texts, ∀ name ∈ location {} ⟨entry.1⟩, EntryName name) :
    (ofTexts texts).WellFormed := by
  suffices hkeeps : ∀ files : FileSystem, files.workingDirectory = [] → files.WellFormed →
      (texts.foldl (fun files entry => files.writeFile 0 ⟨entry.1⟩ (.text entry.2) 0)
        files).WellFormed from
    hkeeps {} rfl (wellFormed_emptyDirectory 0)
  induction texts with
  | nil => exact fun _ _ hfiles => hfiles
  | cons entry texts ih =>
      intro files hworking hfiles
      obtain ⟨hentry, htexts⟩ := List.forall_mem_cons.mp htexts
      have hlocation : files.location ⟨entry.1⟩ = location {} ⟨entry.1⟩ := by
        simp [location, hworking]
      exact ih htexts _ hworking (hfiles.writeFile (hlocation ▸ hentry) 0 0 _)

end Parcels.FileSystem
