import Parcels.Proofs.FileSystem.Listing

/-!
# The order of directory entries

A system may list the entries of a directory in any order.  Whichever it takes,
paths lead to the same files, and discovery finds them in the same order.
-/

namespace Parcels.FileSystem

open RawText (dot)

variable {files relisted : FileSystem} {node other target : Node} {dir : Path}
variable {entries shuffled : List (RawText × Node)} {name extension : RawText}
variable {names segments : List RawText} {modified : Int}

/-! ## Trees listed anew -/

/-- The directories of two trees hold the same names, in any order, and under a
name the same file or directories that are listed anew. -/
inductive Node.Relisted : Node → Node → Prop where
  | file {contents : Contents} {modified : Int} :
      Relisted (.file contents modified) (.file contents modified)
  | directory {entries shuffled : List (RawText × Node)} {modified : Int}
      (names : (entries.map Prod.fst).Perm (shuffled.map Prod.fst))
      (inside : ∀ name node other, (name, node) ∈ entries → (name, other) ∈ shuffled →
        node.Relisted other) :
      Relisted (.directory entries modified) (.directory shuffled modified)

/-- The entries of a directory may be listed anew one by one and then be put in
any order. -/
theorem Node.WellFormed.listedAnew
    (hnode : (Node.directory entries modified).WellFormed) (again : RawText × Node → Node)
    (hagain : ∀ entry ∈ entries, entry.2.Relisted (again entry))
    (hperm : shuffled.Perm (entries.map fun entry => (entry.1, again entry))) :
    (Node.directory entries modified).Relisted (.directory shuffled modified) := by
  cases hnode with
  | directory apart =>
      refine .directory ?_ fun name node other hentry hother => ?_
      · simpa [Function.comp_def] using (hperm.map Prod.fst).symm
      · obtain ⟨entry, hmem, hsame⟩ := List.mem_map.mp (hperm.mem_iff.mp hother)
        obtain ⟨rfl, rfl⟩ := Prod.mk.inj hsame
        have hentry' : entry = (entry.1, node) := List.inj_on_of_nodup_map apart hmem hentry rfl
        have hnode : entry.2 = node := congrArg Prod.snd hentry'
        exact hnode ▸ hagain entry hmem

theorem Node.WellFormed.relisted_refl (hnode : node.WellFormed) : node.Relisted node := by
  induction hnode with
  | file => exact .file
  | directory apart named below ih =>
      exact (WellFormed.directory apart named below).listedAnew Prod.snd ih (.of_eq (by simp))

theorem Node.WellFormed.relisted_of_perm (hnode : (Node.directory entries modified).WellFormed)
    (hperm : shuffled.Perm entries) :
    (Node.directory entries modified).Relisted (.directory shuffled modified) := by
  have hbelow : ∀ entry ∈ entries, entry.2.WellFormed := by
    cases hnode with
    | directory apart named below => exact below
  exact hnode.listedAnew Prod.snd (fun entry hentry => (hbelow entry hentry).relisted_refl)
    (by simpa using hperm)

theorem Node.Relisted.symm (hrelisted : node.Relisted other) : other.Relisted node := by
  induction hrelisted with
  | file => exact .file
  | directory names inside ih =>
      exact .directory names.symm fun name node other hnode hother =>
        ih name other node hother hnode

/-- What is found under a name is found there in the other tree. -/
theorem exists_entry_of_perm (hnames : (entries.map Prod.fst).Perm (shuffled.map Prod.fst))
    (hentry : (name, node) ∈ entries) : ∃ other, (name, other) ∈ shuffled := by
  obtain ⟨⟨_, other⟩, hother, rfl⟩ :=
    List.mem_map.mp (hnames.mem_iff.mp (List.mem_map_of_mem (f := Prod.fst) hentry))
  exact ⟨other, hother⟩

theorem Node.Relisted.wellFormed (hrelisted : node.Relisted other) (hnode : node.WellFormed) :
    other.WellFormed := by
  induction hrelisted with
  | file => exact .file
  | directory names inside ih =>
      cases hnode with
      | directory apart named below =>
          refine .directory (names.nodup_iff.mp apart) (fun entry hentry => ?_)
            fun entry hentry => ?_
          · obtain ⟨node, hnode⟩ := exists_entry_of_perm names.symm hentry
            exact named (entry.1, node) hnode
          · obtain ⟨node, hnode⟩ := exists_entry_of_perm names.symm hentry
            exact ih entry.1 node entry.2 hnode hentry (below (entry.1, node) hnode)

theorem Node.Relisted.leadsTo (hrelisted : node.Relisted other)
    (hleads : node.LeadsTo names target) :
    ∃ reached, other.LeadsTo names reached ∧ target.Relisted reached := by
  induction hleads generalizing other with
  | here => exact ⟨other, .here, hrelisted⟩
  | inside hentry hrest ih =>
      cases hrelisted with
      | directory names inside =>
          obtain ⟨child, hchild⟩ := exists_entry_of_perm names hentry
          obtain ⟨reached, hreached, htarget⟩ := ih (inside _ _ _ hentry hchild)
          exact ⟨reached, .inside hchild hreached, htarget⟩

theorem Node.Relisted.isDirectory_eq (hrelisted : node.Relisted other) :
    other.isDirectory = node.isDirectory := by
  cases hrelisted <;> rfl

theorem Node.Relisted.lists (hrelisted : node.Relisted other)
    (hlists : node.Lists dir extension names) : other.Lists dir extension names where
  found := by
    obtain ⟨target, hleads, hfound⟩ := hlists.found
    obtain ⟨reached, hreached, htarget⟩ := hrelisted.leadsTo hleads
    exact ⟨reached, hreached, htarget.isDirectory_eq ▸ hfound⟩
  reached := hlists.reached
  visible := hlists.visible
  extended := hlists.extended

/-- What a directory lists does not depend on the order of entries. -/
theorem Node.Relisted.lists_iff (hrelisted : node.Relisted other) :
    node.Lists dir extension names ↔ other.Lists dir extension names :=
  ⟨hrelisted.lists, hrelisted.symm.lists⟩

/-! ## Steps of a walk -/

section Steps

variable {above outermost : List Node} {outer : Node} {segment : RawText} {rest : List RawText}

theorem walk_idle (hidle : Path.isIdle segment = true) :
    walk above (.directory entries modified) (segment :: rest) =
      walk above (.directory entries modified) rest := by
  cases above <;> rw [walk, if_pos hidle]

theorem walk_up_from_root :
    walk [] (.directory entries modified) ([dot, dot] :: rest) =
      walk [] (.directory entries modified) rest := rfl

theorem walk_up :
    walk (outer :: outermost) (.directory entries modified) ([dot, dot] :: rest) =
      walk outermost outer rest := rfl

theorem walk_long (hidle : ¬ Path.isIdle segment = true) (hup : segment ≠ [dot, dot])
    (hlong : nameLimit < segment.length) :
    walk above (.directory entries modified) (segment :: rest) = .error .nameTooLong := by
  cases above <;> simp [walk, hidle, hup, hlong]

theorem walk_missing (hidle : ¬ Path.isIdle segment = true) (hup : segment ≠ [dot, dot])
    (hshort : ¬ nameLimit < segment.length) (hmissing : entries.lookup segment = none) :
    walk above (.directory entries modified) (segment :: rest) = .error .notFound := by
  cases above <;> simp [walk, hidle, hup, hshort, hmissing]

theorem walk_down (hidle : ¬ Path.isIdle segment = true) (hup : segment ≠ [dot, dot])
    (hshort : ¬ nameLimit < segment.length) {child : Node}
    (hchild : entries.lookup segment = some child) :
    walk above (.directory entries modified) (segment :: rest) =
      walk (.directory entries modified :: above) child rest := by
  cases above <;> simp [walk, hidle, hup, hshort, hchild]

end Steps

/-! ## Paths in trees listed anew -/

/-- A path leads nowhere for the same reason, or to what is listed anew. -/
inductive Relisted.Reach : Except Failure Node → Except Failure Node → Prop where
  | lost {failure : Failure} : Reach (.error failure) (.error failure)
  | found {node other : Node} (hrelisted : node.Relisted other) : Reach (.ok node) (.ok other)

theorem exists_lookup_iff :
    (∃ node, entries.lookup name = some node) ↔ name ∈ entries.map Prod.fst := by
  rw [← Option.isSome_iff_exists, ← not_iff_not, Option.not_isSome_iff_eq_none,
    List.lookup_eq_none_iff]
  grind

/-- Looked up in both directories, a name is missing or leads to what is listed
anew. -/
theorem Node.Relisted.lookup
    (hrelisted : (Node.directory entries modified).Relisted (.directory shuffled modified))
    (name : RawText) :
    Option.Rel Node.Relisted (entries.lookup name) (shuffled.lookup name) := by
  cases hrelisted with
  | directory names inside =>
      have hfound : (∃ node, entries.lookup name = some node) ↔
          ∃ node, shuffled.lookup name = some node := by
        rw [exists_lookup_iff, exists_lookup_iff, names.mem_iff]
      cases hhere : entries.lookup name with
      | none =>
          cases hthere : shuffled.lookup name with
          | none => exact .none
          | some other => simp [hhere, hthere] at hfound
      | some node =>
          cases hthere : shuffled.lookup name with
          | none => simp [hhere, hthere] at hfound
          | some other => exact .some (inside _ _ _ (mem_of_lookup hhere) (mem_of_lookup hthere))

/-- The same segments lead to the same place in both trees. -/
theorem Node.Relisted.walk {above others : List Node} (hrelisted : node.Relisted other)
    (habove : List.Forall₂ Node.Relisted above others) :
    Relisted.Reach (FileSystem.walk above node segments)
      (FileSystem.walk others other segments) := by
  induction segments generalizing above others node other with
  | nil =>
      rw [FileSystem.walk, FileSystem.walk]
      exact .found hrelisted
  | cons segment rest ih =>
      cases hrelisted with
      | file => exact .lost
      | @directory entries shuffled modified names inside =>
          have hrelisted : (Node.directory entries modified).Relisted
              (.directory shuffled modified) := .directory names inside
          by_cases hidle : Path.isIdle segment = true
          · rw [walk_idle hidle, walk_idle hidle]
            exact ih hrelisted habove
          by_cases hup : segment = [dot, dot]
          · subst hup
            cases habove with
            | nil =>
                rw [walk_up_from_root, walk_up_from_root]
                exact ih hrelisted .nil
            | cons houter houtermost =>
                rw [walk_up, walk_up]
                exact ih houter houtermost
          by_cases hlong : nameLimit < segment.length
          · rw [walk_long hidle hup hlong, walk_long hidle hup hlong]
            exact .lost
          · have hlookup := hrelisted.lookup segment
            generalize hhere : entries.lookup segment = here,
              hthere : shuffled.lookup segment = there at hlookup
            cases hlookup with
            | none =>
                rw [walk_missing hidle hup hlong hhere, walk_missing hidle hup hlong hthere]
                exact .lost
            | some hchild =>
                rw [walk_down hidle hup hlong hhere, walk_down hidle hup hlong hthere]
                exact ih hchild (.cons hrelisted habove)

/-- Two file systems with the same working directory in trees listed anew. -/
structure Relisted (files relisted : FileSystem) : Prop where
  root : files.root.Relisted relisted.root
  workingDirectory : files.workingDirectory = relisted.workingDirectory

namespace Relisted

theorem Reach.bind_eq {Result : Type} {here there : Except Failure Node}
    {next next' : Node → Except Failure Result} (hreach : Reach here there)
    (hnext : ∀ node other, node.Relisted other → next node = next' other) :
    (here >>= next) = there >>= next' := by
  cases hreach with
  | lost => rfl
  | found hrelisted => exact hnext _ _ hrelisted

theorem lookup (hrelisted : files.Relisted relisted) (path : Path) :
    Reach (files.lookup path) (relisted.lookup path) := by
  unfold FileSystem.lookup
  rw [hrelisted.workingDirectory]
  split
  · exact .lost
  split
  · exact .lost
  split
  · exact hrelisted.root.walk .nil
  · exact hrelisted.root.walk .nil

theorem wellFormed (hrelisted : files.Relisted relisted) (hfiles : files.WellFormed) :
    relisted.WellFormed :=
  hrelisted.root.wellFormed hfiles

theorem readText_eq (hrelisted : files.Relisted relisted) :
    relisted.readText = files.readText := by
  funext path
  refine ((hrelisted.lookup path).bind_eq fun node other hnode => ?_).symm
  cases hnode <;> rfl

/-- Discovery finds the same files in the same order. -/
theorem discover_eq (hrelisted : files.Relisted relisted) (hfiles : files.WellFormed) :
    relisted.discover = files.discover := by
  funext dir extension
  have hsame := hrelisted.lookup dir
  generalize hhere : files.lookup dir = here, hthere : relisted.lookup dir = there at hsame
  cases hsame with
  | lost => simp only [discover, hhere, hthere, bind, Except.bind]
  | @found node other hnode =>
      have hlists : ∀ names, node.Lists dir extension names ↔ other.Lists dir extension names :=
        fun _ => hnode.lists_iff
      cases hnode with
      | file => simp only [discover, hhere, hthere, bind, Except.bind]
      | directory names inside =>
          obtain ⟨paths, hpaths, hlisting⟩ := hfiles.discover_listing hhere extension
          obtain ⟨more, hmore, hlisting'⟩ :=
            (hrelisted.wellFormed hfiles).discover_listing hthere extension
          rw [hpaths, hmore, hlisting.unique hlists hlisting']

end Relisted

end Parcels.FileSystem
