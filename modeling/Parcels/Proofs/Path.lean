import Mathlib.Data.List.Infix
import Parcels.Path

/-!
# Paths made of names

A name joined to a path is one more component of it, whatever slashes the path
ends in.  So what lies below a directory is told by the names that lead to it,
and dropping an extension that is known loses nothing.
-/

namespace Parcels.Path

open RawText (dot slash)

/-- Bytes that can name an entry of a directory. -/
structure EntryName (name : RawText) : Prop where
  nonempty : name ≠ []
  not_here : name ≠ [dot]
  not_up : name ≠ [dot, dot]
  plain : slash ∉ name

instance (name : RawText) : Decidable (EntryName name) :=
  decidable_of_iff (name ≠ [] ∧ name ≠ [dot] ∧ name ≠ [dot, dot] ∧ slash ∉ name)
    ⟨fun ⟨hnonempty, hhere, hup, hplain⟩ => ⟨hnonempty, hhere, hup, hplain⟩,
      fun ⟨hnonempty, hhere, hup, hplain⟩ => ⟨hnonempty, hhere, hup, hplain⟩⟩

/-- The path that leads through the names, from wherever one stands. -/
def ofNames (names : List RawText) : Path :=
  ⟨[slash].intercalate names⟩

variable {base path : Path} {name extension : RawText} {names init : List RawText}
variable {segs more : List RawText}

theorem beq_iff {left right : Path} :
    (left == right) = true ↔ left.components = right.components := by
  change (left.components == right.components) = true ↔ _
  exact beq_iff_eq

/-- What is shown spells the path itself just when the path is UTF-8. -/
theorem mk_text_eq_iff : (⟨path.text⟩ : Path) = path ↔ (RawText.text? path.raw).isSome := by
  constructor
  · intro hsame
    have hraw : RawText.ofText path.text = path.raw := congrArg Path.raw hsame
    rw [← hraw, RawText.text?_ofText]
    rfl
  · intro hsome
    obtain ⟨text, htext⟩ := Option.isSome_iff_exists.mp hsome
    have hraw : path.raw = RawText.ofText text := RawText.text?_eq_some_iff.mp htext
    obtain ⟨raw⟩ := path
    obtain rfl : raw = RawText.ofText text := hraw
    exact congrArg mk (RawText.shown_ofText text)

/-! ## Names as components -/

theorem EntryName.not_idle (hname : EntryName name) : isIdle name = false := by
  simp [isIdle, hname.nonempty, hname.not_here]

theorem EntryName.component?_eq (hname : EntryName name) :
    component? name = some (.name name) := by
  simp [component?, hname.not_idle, hname.not_up]

theorem filterMap_component?_names (hnames : ∀ name ∈ names, EntryName name) :
    names.filterMap component? = names.map Component.name := by
  induction names with
  | nil => rfl
  | cons name names ih =>
      obtain ⟨hname, hnames⟩ := List.forall_mem_cons.mp hnames
      rw [List.filterMap_cons_some hname.component?_eq, ih hnames, List.map_cons]

theorem filterMap_component?_singleton (hname : EntryName name) :
    [name].filterMap component? = [.name name] :=
  filterMap_component?_names (by simpa using hname)

theorem map_name_injective : Function.Injective (List.map Component.name) :=
  List.map_injective_iff.mpr fun _ _ => Component.name.inj

theorem splitAnchor_root {body : List RawText} (hbody : body ≠ []) :
    splitAnchor ([] :: body) = (some .root, body) := by
  cases body with
  | nil => exact absurd rfl hbody
  | cons first others => rfl

theorem splitAnchor_plain {first : RawText} {others : List RawText} (hnonempty : first ≠ [])
    (hhere : first ≠ [dot]) : splitAnchor (first :: others) = (none, first :: others) := by
  unfold splitAnchor
  split <;> simp_all

/-- What follows the start of a path joins its body. -/
theorem splitAnchor_append (hnonempty : segs ≠ []) (hplain : segs ≠ [[]]) :
    splitAnchor (segs ++ more) =
      ((splitAnchor segs).1, (splitAnchor segs).2 ++ more) := by
  obtain ⟨first, others, rfl⟩ := List.exists_cons_of_ne_nil hnonempty
  rw [List.cons_append]
  by_cases hroot : first = []
  · subst hroot
    have hothers : others ≠ [] := by simpa using hplain
    rw [splitAnchor_root hothers, splitAnchor_root (by simp [hothers])]
  · by_cases hhere : first = [dot]
    · subst hhere
      rfl
    · rw [splitAnchor_plain hroot hhere, splitAnchor_plain hroot hhere]
      rfl

theorem splitAnchor_names (hnames : ∀ name ∈ names, EntryName name) :
    splitAnchor names = (none, names) := by
  cases names with
  | nil => rfl
  | cons name names =>
      have hname := hnames name List.mem_cons_self
      exact splitAnchor_plain hname.nonempty hname.not_here

/-! ## Segments -/

/-- A name that follows a slash is the last segment. -/
theorem segments_of_slash {start : RawText} (hname : slash ∉ name)
    (hraw : path.raw = start ++ slash :: name) :
    path.segments = segments ⟨start⟩ ++ [name] := by
  rw [segments, hraw, List.splitOn_append_cons_self, List.splitOn_eq_singleton hname]
  rfl

theorem segments_ne_nil (path : Path) : path.segments ≠ [] := by
  simp [segments]

theorem segments_ne_empty (hpath : path.raw ≠ []) : path.segments ≠ [[]] := by
  intro hsplit
  have hraw : [slash].intercalate path.segments = path.raw := List.intercalate_splitOn slash
  rw [hsplit] at hraw
  exact hpath hraw.symm

/-- The start of a path tells its anchor; what follows adds to the body. -/
theorem components_of_segments (hsegments : path.segments = segs ++ more)
    (hnonempty : segs ≠ []) (hplain : segs ≠ [[]]) :
    path.components = (splitAnchor segs).1.toList ++
      (splitAnchor segs).2.filterMap component? ++ more.filterMap component? := by
  simp only [components, hsegments, splitAnchor_append hnonempty hplain,
    List.filterMap_append, List.append_assoc]

/-! ## Paths of names -/

theorem ofNames_cons {next : RawText} {rest : List RawText} :
    (ofNames (name :: next :: rest)).raw = name ++ slash :: (ofNames (next :: rest)).raw := by
  simp [ofNames, List.intercalate]

theorem ofNames_append (init : List RawText) (last more : RawText) :
    (ofNames (init ++ [last])).raw ++ more = (ofNames (init ++ [last ++ more])).raw := by
  induction init with
  | nil => simp [ofNames, List.intercalate]
  | cons first init ih =>
      cases init with
      | nil => simp [ofNames, List.intercalate]
      | cons second init =>
          simp only [List.cons_append, ofNames_cons, List.append_assoc] at ih ⊢
          rw [ih]

theorem segments_ofNames (hnames : ∀ name ∈ names, EntryName name) (hnonempty : names ≠ []) :
    (ofNames names).segments = names :=
  List.splitOn_intercalate slash (fun name hname => (hnames name hname).plain) hnonempty

theorem components_ofNames (hnames : ∀ name ∈ names, EntryName name) (hnonempty : names ≠ []) :
    (ofNames names).components = names.map Component.name := by
  rw [components, segments_ofNames hnames hnonempty, splitAnchor_names hnames]
  exact filterMap_component?_names hnames

/-- What leads from a directory to a path below it. -/
theorem relativeTo?_of_components (hpath : path.components = base.components ++ names.map .name) :
    path.relativeTo? base = some (ofNames names) := by
  have hrest : base.components.isPrefixOf? path.components = some (names.map .name) := by
    rw [List.isPrefixOf?_eq_some_iff_append_eq, hpath]
  have hnames : (names.map Component.name).map Component.raw = names := by
    simp [Function.comp_def, Component.raw]
  rw [relativeTo?, hrest, Option.map_some, hnames, ofNames]

theorem dropTrailingIdle_names (hnames : ∀ name ∈ names, EntryName name) :
    dropTrailingIdle names = names := by
  rcases List.eq_nil_or_concat names with rfl | ⟨init, last, rfl⟩
  · rfl
  · have hlast := (hnames last (by simp)).not_idle
    simp [dropTrailingIdle, hlast]

/-! ## Joining -/

/-- A last segment that is empty gives way to a name, also after the root. -/
theorem components_of_slash {longer : Path} (hpath : path.segments = segs ++ [[]])
    (hlonger : longer.segments = segs ++ [name]) (hsegs : segs ≠ [])
    (hname : EntryName name) : longer.components = path.components ++ [.name name] := by
  have hlast := filterMap_component?_singleton hname
  have hempty : [[]].filterMap component? = [] := rfl
  by_cases hplain : segs = [[]]
  · subst hplain
    simp only [components, hpath, hlonger, List.singleton_append,
      splitAnchor_root (List.cons_ne_nil _ _), hlast, hempty, List.append_nil]
  · rw [components_of_segments hpath hsegs hplain,
      components_of_segments hlonger hsegs hplain, hlast, hempty, List.append_nil]

/-- A name joined to a path is its new last component. -/
theorem components_join (hname : EntryName name) :
    (base.join name).components = base.components ++ [.name name] := by
  have hrelative : name.head? ≠ some slash := fun hhead =>
    hname.plain (List.mem_of_mem_head? hhead)
  rw [join, if_neg hrelative]
  rcases List.eq_nil_or_concat base.raw with hempty | ⟨start, last, hraw⟩
  · obtain ⟨raw⟩ := base
    obtain rfl : raw = [] := hempty
    have hnames : ∀ other ∈ [name], EntryName other := by simpa using hname
    simpa [ofNames, components, segments, splitAnchor] using
      components_ofNames hnames (List.cons_ne_nil _ _)
  · have hraw' : base.raw = start ++ [last] := by simpa using hraw
    by_cases hslash : last = slash
    · subst hslash
      have hall : base.raw.getLast?.all (· == slash) = true := by simp [hraw]
      rw [if_pos hall]
      refine components_of_slash (segments_of_slash (by simp) hraw') ?_ (segments_ne_nil _) hname
      exact segments_of_slash hname.plain (by simp [hraw'])
    · have hall : ¬ base.raw.getLast?.all (· == slash) = true := by simp [hraw, hslash]
      have hpath : base.raw ≠ [] := by simp [hraw']
      have hjoined : segments ⟨base.raw ++ slash :: name⟩ = base.segments ++ [name] :=
        segments_of_slash hname.plain rfl
      rw [if_neg hall, components_of_segments hjoined (segments_ne_nil base)
        (segments_ne_empty hpath), filterMap_component?_singleton hname, components]

theorem components_foldl_join (base : Path) (hnames : ∀ name ∈ names, EntryName name) :
    (names.foldl join base).components = base.components ++ names.map .name := by
  induction names generalizing base with
  | nil => simp
  | cons name names ih =>
      obtain ⟨hname, hnames⟩ := List.forall_mem_cons.mp hnames
      rw [List.foldl_cons, ih _ hnames, components_join hname, List.append_assoc]
      rfl

/-- A path that names are joined to is at least as long as they are. -/
theorem length_foldl_join (base : Path) (hnames : ∀ name ∈ names, EntryName name) :
    base.raw.length + names.flatten.length ≤ (names.foldl join base).raw.length := by
  induction names generalizing base with
  | nil => simp
  | cons name names ih =>
      obtain ⟨hname, hnames⟩ := List.forall_mem_cons.mp hnames
      have hrelative : name.head? ≠ some slash := fun hhead =>
        hname.plain (List.mem_of_mem_head? hhead)
      have hjoined : base.raw.length + name.length ≤ (base.join name).raw.length := by
        rw [join, if_neg hrelative]
        split <;> simp
      have hrest := ih (base.join name) hnames
      rw [List.foldl_cons, List.flatten_cons, List.length_append]
      omega

theorem EntryName.exists_first (hname : EntryName name) :
    ∃ first others, name = first :: others ∧ first ≠ slash := by
  obtain ⟨first, others, rfl⟩ := List.exists_cons_of_ne_nil hname.nonempty
  refine ⟨first, others, rfl, ?_⟩
  rintro rfl
  exact hname.plain List.mem_cons_self

theorem head?_ofNames_ne (hname : EntryName name) (rest : List RawText) :
    (ofNames (name :: rest)).raw.head? ≠ some slash := by
  obtain ⟨first, others, rfl, hfirst⟩ := hname.exists_first
  cases rest with
  | nil => simp [ofNames, List.intercalate, hfirst]
  | cons next rest => simp [ofNames_cons, hfirst]

theorem getLast?_append_ne (hname : EntryName name) (start : RawText) :
    ¬ (start ++ name).getLast?.all (· == slash) = true := by
  have hend : name.getLast hname.nonempty ≠ slash := fun hslash =>
    hname.plain (hslash ▸ List.getLast_mem hname.nonempty)
  simp [List.getLast?_append, List.getLast?_eq_getLast_of_ne_nil hname.nonempty, hend]

/-- A path below a name is joined after the name. -/
theorem join_slash (hname : EntryName name) {relative : RawText}
    (hrelative : relative.head? ≠ some slash) :
    base.join (name ++ slash :: relative) = (base.join name).join relative := by
  have hjoined : ∀ start : RawText,
      join ⟨start ++ name⟩ relative = ⟨start ++ (name ++ slash :: relative)⟩ := by
    intro start
    rw [join, if_neg hrelative, if_neg (getLast?_append_ne hname start), List.append_assoc]
  obtain ⟨first, others, hbytes, hfirst⟩ := hname.exists_first
  have hname' : name.head? ≠ some slash := by simp [hbytes, hfirst]
  have hwhole : (name ++ slash :: relative).head? ≠ some slash := by simp [hbytes, hfirst]
  simp only [join.eq_1 base, if_neg hname', if_neg hwhole]
  split
  · exact (hjoined base.raw).symm
  · simpa using (hjoined (base.raw ++ [slash])).symm

theorem joinPath_ofNames (hnames : ∀ name ∈ names, EntryName name) (hnonempty : names ≠ []) :
    base.joinPath (ofNames names) = names.foldl join base := by
  induction names generalizing base with
  | nil => exact absurd rfl hnonempty
  | cons name names ih =>
      obtain ⟨hname, hnames⟩ := List.forall_mem_cons.mp hnames
      cases names with
      | nil => simp [joinPath, ofNames, List.intercalate]
      | cons next rest =>
          have hhead := head?_ofNames_ne (hnames next List.mem_cons_self) rest
          rw [joinPath, ofNames_cons, join_slash hname hhead, List.foldl_cons]
          exact ih hnames (List.cons_ne_nil _ _)

theorem components_joinPath (hnames : ∀ name ∈ names, EntryName name) (hnonempty : names ≠ []) :
    (base.joinPath (ofNames names)).components = base.components ++ names.map .name := by
  rw [joinPath_ofNames hnames hnonempty, components_foldl_join base hnames]

/-! ## Extensions -/

variable {last before after stem : RawText}

/-- Only the last name changes with the extension. -/
theorem withExtension_ofNames (hnames : ∀ name ∈ init ++ [last], EntryName name) :
    (ofNames (init ++ [last])).withExtension extension =
      ofNames (init ++ [setExtension last extension]) := by
  have hnonempty : init ++ [last] ≠ [] := by simp
  have hlast : (ofNames (init ++ [last])).fileName? = some last := by
    simp [fileName?, components_ofNames hnames hnonempty]
  simp only [withExtension, hlast, segments_ofNames hnames hnonempty,
    splitAnchor_names hnames, dropTrailingIdle_names hnames, List.dropLast_concat]
  rfl

theorem splitLastDot_eq_none_iff : splitLastDot name = none ↔ dot ∉ name := by
  induction name with
  | nil => simp [splitLastDot]
  | cons byte rest ih =>
      rw [splitLastDot]
      cases hrest : splitLastDot rest with
      | none =>
          have hdotless := ih.mp hrest
          simp [hdotless, eq_comm]
      | some parts =>
          have hdot : dot ∈ rest := by
            by_contra hdotless
            simp [ih.mpr hdotless] at hrest
          simp [hdot]

theorem splitLastDot_eq_some_iff :
    splitLastDot name = some (before, after) ↔ name = before ++ dot :: after ∧ dot ∉ after := by
  constructor
  · intro hsplit
    induction name generalizing before after with
    | nil => cases hsplit
    | cons byte rest ih =>
        rw [splitLastDot] at hsplit
        split at hsplit
        · next first second hrest =>
          obtain ⟨rfl, rfl⟩ : byte :: first = before ∧ second = after := by simpa using hsplit
          obtain ⟨hbytes, hafter⟩ := ih hrest
          exact ⟨by rw [hbytes, List.cons_append], hafter⟩
        · next hnone =>
          split at hsplit
          · next hdot =>
            obtain ⟨rfl, rfl⟩ : [] = before ∧ rest = after := by simpa using hsplit
            exact ⟨by rw [hdot, List.nil_append], splitLastDot_eq_none_iff.mp hnone⟩
          · cases hsplit
  · rintro ⟨rfl, hafter⟩
    induction before with
    | nil => simp [splitLastDot, splitLastDot_eq_none_iff.mpr hafter]
    | cons first before ih => rw [List.cons_append, splitLastDot, ih]

/-- A name with an extension is a stem, which is not empty, a dot and the
extension. -/
theorem stemAndExtension_eq_iff :
    stemAndExtension name = (stem, some extension) ↔
      name = stem ++ dot :: extension ∧ stem ≠ [] ∧ dot ∉ extension := by
  rw [stemAndExtension]
  constructor
  · intro hparts
    split at hparts
    · next first before after hsplit =>
      obtain ⟨rfl, rfl⟩ : first :: before = stem ∧ after = extension := by simpa using hparts
      obtain ⟨hbytes, hafter⟩ := splitLastDot_eq_some_iff.mp hsplit
      exact ⟨hbytes, List.cons_ne_nil _ _, hafter⟩
    · cases hparts
  · rintro ⟨hbytes, hstem, hdotless⟩
    obtain ⟨first, before, rfl⟩ := List.exists_cons_of_ne_nil hstem
    rw [splitLastDot_eq_some_iff.mpr ⟨hbytes, hdotless⟩]

theorem extension?_eq_some_iff :
    extension? name = some extension ↔
      ∃ stem, name = stem ++ dot :: extension ∧ stem ≠ [] ∧ dot ∉ extension := by
  simp only [← stemAndExtension_eq_iff, Prod.ext_iff, extension?, exists_eq_left']

/-- A name has an extension just when it has a dot that does not come first. -/
theorem extension?_eq_none_iff : extension? name = none ↔ dot ∉ name.tail := by
  rw [extension?, stemAndExtension]
  cases hsplit : splitLastDot name with
  | none =>
      have hdotless := splitLastDot_eq_none_iff.mp hsplit
      simpa using fun hdot => hdotless (List.mem_of_mem_tail hdot)
  | some parts =>
      obtain ⟨before, after⟩ := parts
      obtain ⟨rfl, hafter⟩ := splitLastDot_eq_some_iff.mp hsplit
      cases before with
      | nil => simp [hafter]
      | cons first others => simp

/-- What the stem leaves out of a name is known. -/
theorem setExtension_append (hextension : extension? name = some extension) :
    setExtension name [] ++ dot :: extension = name := by
  have hparts : stemAndExtension name = (setExtension name [], some extension) :=
    Prod.ext (by simp [setExtension]) hextension
  exact (stemAndExtension_eq_iff.mp hparts).1.symm

theorem setExtension_eq (hextension : extension ≠ []) :
    setExtension name extension = setExtension name [] ++ dot :: extension := by
  rw [setExtension, if_neg hextension, setExtension, if_pos rfl]

theorem setExtension_eq_self_iff : setExtension name [] = name ↔ extension? name = none := by
  constructor
  · intro hstem
    cases hsome : extension? name with
    | none => rfl
    | some extension =>
        have happend := setExtension_append hsome
        simp [hstem] at happend
  · intro hnone
    rw [setExtension, if_pos rfl]
    unfold extension? at hnone
    unfold stemAndExtension at hnone ⊢
    split <;> simp_all

theorem setExtension_eq_self_iff_dotless : setExtension name [] = name ↔ dot ∉ name.tail :=
  setExtension_eq_self_iff.trans extension?_eq_none_iff

/-- The stem is the start of the name, and it is not empty. -/
theorem exists_stem (hname : name ≠ []) :
    ∃ more, name = setExtension name [] ++ more ∧ setExtension name [] ≠ [] := by
  cases hextension : extension? name with
  | none => exact ⟨[], by simp [setExtension_eq_self_iff.mpr hextension, hname]⟩
  | some extension =>
      obtain ⟨stem, hbytes, hstem, -⟩ := extension?_eq_some_iff.mp hextension
      have happend := setExtension_append hextension
      refine ⟨dot :: extension, happend.symm, ?_⟩
      rwa [List.append_cancel_right (happend.trans hbytes)]

/-- A stem, which is not empty, is a name with an extension behind it. -/
theorem entryName_append (hstem : stem ≠ []) (hplain : slash ∉ stem)
    (hextension : EntryName extension) : EntryName (stem ++ dot :: extension) := by
  obtain ⟨first, others, rfl⟩ := List.exists_cons_of_ne_nil hstem
  obtain ⟨byte, rest, hbytes⟩ := List.exists_cons_of_ne_nil hextension.nonempty
  refine ⟨by simp, by simp, fun hup => ?_, ?_⟩
  · have hlength := congrArg List.length hup
    simp [hbytes] at hlength
    omega
  · have hdot : slash ≠ dot := by decide
    exact List.not_mem_append hplain (List.not_mem_cons_of_ne_of_not_mem hdot hextension.plain)

theorem EntryName.append (hname : EntryName name) (hextension : EntryName extension) :
    EntryName (name ++ dot :: extension) :=
  entryName_append hname.nonempty hname.plain hextension

/-- With another extension, a name is still one. -/
theorem EntryName.setExtension (hname : EntryName name) (hextension : EntryName extension) :
    EntryName (Path.setExtension name extension) := by
  obtain ⟨more, hbytes, hstem⟩ := exists_stem hname.nonempty
  rw [setExtension_eq hextension.nonempty]
  exact entryName_append hstem
    (fun hslash => hname.plain (hbytes ▸ List.mem_append_left _ hslash)) hextension

/-- A path of names. -/
structure Named (path : Path) (init : List RawText) (last : RawText) : Prop where
  eq_ofNames : path = ofNames (init ++ [last])
  names : ∀ name ∈ init ++ [last], EntryName name

namespace Named

variable (hnamed : path.Named init last)

include hnamed

theorem components_eq : path.components = (init ++ [last]).map .name := by
  rw [hnamed.eq_ofNames, components_ofNames hnamed.names (by simp)]

theorem fileName?_eq : path.fileName? = some last := by
  simp [fileName?, hnamed.components_eq]

theorem withExtension_eq : path.withExtension extension =
    ofNames (init ++ [setExtension last extension]) := by
  rw [hnamed.eq_ofNames, withExtension_ofNames hnamed.names]

theorem replaced (hname : EntryName name) : ∀ other ∈ init ++ [name], EntryName other := by
  intro other hother
  rcases List.mem_append.mp hother with hinit | hlast
  · exact hnamed.names other (List.mem_append_left _ hinit)
  · exact List.mem_singleton.mp hlast ▸ hname

end Named

end Parcels.Path
