import Parcels.Proofs.Model.FullSymbols

/-!
# Short symbols

A short symbol leads to the class of the parcel itself, or else to the class
of the one direct prereq that defines it.  Matches are counted along the list
of prereqs as it is declared.  A parcel that the list names twice is counted
twice, so its symbols can look ambiguous although no other parcel has them.
-/

namespace Parcels.Model

variable {model : Model} {id : ParcelId} {symbol : String}

/-! ## Parcels that define a symbol -/

def Defines (model : Model) (id : ParcelId) (symbol : String) (member : ClassId) : Prop :=
  member ∈ model.classesOf id ∧ (model.classAt member).structSymbol = symbol

/-- The direct prereqs that define a symbol, as often as they are declared. -/
def definingPrereqs (model : Model) (id : ParcelId) (symbol : String) : List ParcelId :=
  (model.prereqParcels id).filter fun prereq =>
    (model.withStructSymbol? prereq symbol).isSome

/-- The direct prereqs that define a symbol, in the order in which they are
first declared. -/
def definers (model : Model) (id : ParcelId) (symbol : String) : List ParcelId :=
  (model.definingPrereqs id symbol).eraseDups

theorem Partitioned.withStructSymbol?_eq_some_iff (hpartitioned : model.Partitioned)
    {member : ClassId} :
    model.withStructSymbol? id symbol = some member ↔ model.Defines id symbol member := by
  constructor
  · exact withStructSymbol?_eq_some
  · rintro ⟨hmember, rfl⟩
    obtain ⟨found, hfound⟩ := Option.isSome_iff_exists.mp (isSome_withStructSymbol? hmember)
    obtain ⟨hmember', hsymbol⟩ := withStructSymbol?_eq_some hfound
    rwa [hpartitioned.eq_of_structSymbol_eq hmember' hmember hsymbol] at hfound

theorem Partitioned.withStructSymbol?_eq_none_iff (hpartitioned : model.Partitioned) :
    model.withStructSymbol? id symbol = none ↔ ∀ member, ¬ model.Defines id symbol member := by
  simp only [Option.eq_none_iff_forall_ne_some, Ne, hpartitioned.withStructSymbol?_eq_some_iff]

theorem exists_of_mem_definingPrereqs {prereq : ParcelId}
    (hprereq : prereq ∈ model.definingPrereqs id symbol) :
    ∃ member, model.withStructSymbol? prereq symbol = some member :=
  Option.isSome_iff_exists.mp (List.mem_filter.mp hprereq).2

theorem filterMap_definingPrereqs (model : Model) (id : ParcelId) (symbol : String) :
    (model.definingPrereqs id symbol).filterMap (model.withStructSymbol? · symbol) =
      (model.prereqParcels id).filterMap (model.withStructSymbol? · symbol) := by
  rw [definingPrereqs, List.filterMap_filter]
  refine List.filterMap_congr fun prereq _ => ?_
  cases model.withStructSymbol? prereq symbol <;> rfl

/-! ## What the lookup finds -/

/-- What a lookup answers that counts the given parcels, which define the
symbol: nothing, the one class there is, or a warning about the first two. -/
def AnswersBy (model : Model) (symbol : String) (answer : Option ClassId × Model) :
    List ParcelId → Prop
  | [] => answer = (none, model)
  | [only] => ∃ member, model.Defines only symbol member ∧ answer = (some member, model)
  | first :: second :: _ => ∃ left right,
      model.Defines first symbol left ∧ model.Defines second symbol right ∧
        answer = (none, model.warn (.ambiguousSymbol symbol
          (model.fullStructSymbol left) (model.fullStructSymbol right)))

/-- A class of the parcel itself comes first.  Otherwise every direct prereq
that defines the symbol counts once. -/
structure FindsShortSymbol (model : Model) (id : ParcelId) (symbol : String) : Prop where
  own : ∀ member, model.Defines id symbol member →
    model.findShortSymbol id symbol = (some member, model)
  prereqs : (∀ member, ¬ model.Defines id symbol member) →
    model.AnswersBy symbol (model.findShortSymbol id symbol) (model.definers id symbol)

/-- A class of the parcel itself is found without a look at the prereqs. -/
theorem Partitioned.findShortSymbol_own (hpartitioned : model.Partitioned) {member : ClassId}
    (hdefines : model.Defines id symbol member) :
    model.findShortSymbol id symbol = (some member, model) := by
  rw [findShortSymbol, hpartitioned.withStructSymbol?_eq_some_iff.mpr hdefines]

/-- The lookup goes by the list as it is declared. -/
theorem Partitioned.findShortSymbol_answersBy (hpartitioned : model.Partitioned)
    (habsent : ∀ member, ¬ model.Defines id symbol member) :
    model.AnswersBy symbol (model.findShortSymbol id symbol)
      (model.definingPrereqs id symbol) := by
  have hexists : ∀ prereq ∈ model.definingPrereqs id symbol, _ :=
    fun _ => exists_of_mem_definingPrereqs
  rw [findShortSymbol, hpartitioned.withStructSymbol?_eq_none_iff.mpr habsent,
    ← filterMap_definingPrereqs]
  generalize model.definingPrereqs id symbol = counted at hexists ⊢
  rcases counted with _ | ⟨first, _ | ⟨second, others⟩⟩
  · rfl
  · obtain ⟨member, hmember⟩ := hexists first (by simp)
    refine ⟨member, withStructSymbol?_eq_some hmember, ?_⟩
    simp [hmember]
  · obtain ⟨left, hleft⟩ := hexists first (by simp)
    obtain ⟨right, hright⟩ := hexists second (by simp)
    refine ⟨left, right, withStructSymbol?_eq_some hleft, withStructSymbol?_eq_some hright, ?_⟩
    simp [hleft, hright]

/-! ## Prereqs that are counted twice -/

theorem Partitioned.fullStructSymbol_of_defines (hpartitioned : model.Partitioned)
    {member : ClassId} (hdefines : model.Defines id symbol member) :
    model.fullStructSymbol member = (model.parcelAt id).lowerPrefix ++ symbol := by
  obtain ⟨hmember, rfl⟩ := hdefines
  rw [fullStructSymbol, hpartitioned.owner_of_mem hmember]

theorem definers_of_ne {first second : ParcelId} {others : List ParcelId}
    (hlist : model.definingPrereqs id symbol = first :: second :: others)
    (hne : first ≠ second) : ∃ rest, model.definers id symbol = first :: second :: rest := by
  rw [definers, hlist, List.eraseDups_cons,
    List.filter_cons_of_pos (by simpa using hne.symm), List.eraseDups_cons]
  exact ⟨_, rfl⟩

theorem definers_of_eq {first : ParcelId} {others : List ParcelId}
    (hlist : model.definingPrereqs id symbol = first :: others) :
    ∃ rest, model.definers id symbol = first :: rest := by
  rw [definers, hlist, List.eraseDups_cons]
  exact ⟨_, rfl⟩

/-- The first two matches are in one parcel, and a warning about it and the
next parcel that defines the symbol, if there is one, would read differently. -/
def CountsTwice (model : Model) (id : ParcelId) (symbol : String) : Prop :=
  ∃ twice others, model.definingPrereqs id symbol = twice :: twice :: others ∧
    ∀ next rest, model.definers id symbol = twice :: next :: rest →
      (model.parcelAt next).lowerPrefix ≠ (model.parcelAt twice).lowerPrefix

theorem warn_injective {first second : Warning}
    (hsame : model.warn first = model.warn second) : first = second := by
  have hwarnings := congrArg Model.warnings hsame
  simpa [warn] using hwarnings

theorem Partitioned.not_countsTwice (hpartitioned : model.Partitioned)
    (habsent : ∀ member, ¬ model.Defines id symbol member)
    (hfinds : model.FindsShortSymbol id symbol) : ¬ model.CountsTwice id symbol := by
  rintro ⟨twice, others, hlist, hdiffers⟩
  have hlookup := hpartitioned.findShortSymbol_answersBy habsent
  have hshould := hfinds.prereqs habsent
  rw [hlist] at hlookup
  obtain ⟨left, right, -, hright, hanswer⟩ := hlookup
  obtain ⟨rest, hdefiners⟩ := definers_of_eq hlist
  rw [hdefiners, hanswer] at hshould
  cases rest with
  | nil =>
      obtain ⟨member, -, hfound⟩ := hshould
      simp at hfound
  | cons next rest =>
      obtain ⟨first, second, -, hsecond, hwarned⟩ := hshould
      have hwarning := warn_injective (Prod.mk.inj hwarned).2
      have hfull : model.fullStructSymbol right = model.fullStructSymbol second :=
        (Warning.ambiguousSymbol.inj hwarning).2.2
      rw [hpartitioned.fullStructSymbol_of_defines hright,
        hpartitioned.fullStructSymbol_of_defines hsecond, String.append_left_inj] at hfull
      exact hdiffers next rest hdefiners hfull.symm

theorem Partitioned.answersBy_definers (hpartitioned : model.Partitioned)
    (habsent : ∀ member, ¬ model.Defines id symbol member)
    (honce : ¬ model.CountsTwice id symbol) :
    model.AnswersBy symbol (model.findShortSymbol id symbol) (model.definers id symbol) := by
  have hlookup := hpartitioned.findShortSymbol_answersBy habsent
  rcases hlist : model.definingPrereqs id symbol with _ | ⟨first, _ | ⟨second, others⟩⟩
  · rw [hlist] at hlookup
    rwa [definers, hlist]
  · rw [hlist] at hlookup
    rwa [definers, hlist]
  · rw [hlist] at hlookup
    by_cases hsame : second = first
    · subst hsame
      -- The warning names the parcel twice, which is right only by accident.
      obtain ⟨left, right, hleft, hright, hanswer⟩ := hlookup
      have hnext : ∃ next rest, model.definers id symbol = second :: next :: rest ∧
          (model.parcelAt next).lowerPrefix = (model.parcelAt second).lowerPrefix := by
        by_contra hnone
        refine honce ⟨second, others, hlist, fun next rest hdefiners hprefix => ?_⟩
        exact hnone ⟨next, rest, hdefiners, hprefix⟩
      obtain ⟨next, rest, hdefiners, hprefix⟩ := hnext
      have hdefines : next ∈ model.definingPrereqs id symbol := by
        rw [← List.mem_eraseDups, ← definers, hdefiners]
        simp
      obtain ⟨member, hmember⟩ := exists_of_mem_definingPrereqs hdefines
      have hmember := withStructSymbol?_eq_some hmember
      rw [hdefiners, hanswer]
      refine ⟨left, member, hleft, hmember, ?_⟩
      rw [hpartitioned.fullStructSymbol_of_defines hright,
        hpartitioned.fullStructSymbol_of_defines hmember, hprefix]
    · obtain ⟨rest, hdefiners⟩ := definers_of_ne hlist (Ne.symm hsame)
      rwa [hdefiners]

theorem not_countsTwice_of_nodup
    (hnames : ((model.parcelAt id).prereqs.map Prereq.name).Nodup) :
    ¬ model.CountsTwice id symbol := by
  have hbyName : model.prereqParcels id =
      ((model.parcelAt id).prereqs.map Prereq.name).filterMap model.parcelNamed? := by
    rw [List.filterMap_map]
    rfl
  have hprereqs : (model.prereqParcels id).Nodup := by
    rw [hbyName]
    refine hnames.filterMap fun left right parcel hleft hright => ?_
    exact (parcelNamed?_eq_some hleft).2.symm.trans (parcelNamed?_eq_some hright).2
  rintro ⟨twice, others, hlist, -⟩
  have hnodup := hprereqs.filter fun prereq =>
    (model.withStructSymbol? prereq symbol).isSome
  rw [← definingPrereqs, hlist] at hnodup
  simp at hnodup

/-- A short symbol is looked up rightly just when the parcel defines it itself
or the first two matches among its prereqs are not counted in one parcel. -/
theorem findsShortSymbol_iff (hreachable : model.Reachable) (id : ParcelId)
    (symbol : String) :
    (model.FindsShortSymbol id symbol ↔
        (∃ member, model.Defines id symbol member) ∨ ¬ model.CountsTwice id symbol) ∧
      (((model.parcelAt id).prereqs.map Prereq.name).Nodup →
        model.FindsShortSymbol id symbol) := by
  have hpartitioned := hreachable.sound.partitioned
  have hfinds : ¬ model.CountsTwice id symbol → model.FindsShortSymbol id symbol :=
    fun honce =>
      { own := fun _ => hpartitioned.findShortSymbol_own
        prereqs := fun habsent => hpartitioned.answersBy_definers habsent honce }
  refine ⟨⟨?_, ?_⟩, fun hnames => hfinds (not_countsTwice_of_nodup hnames)⟩
  · intro hright
    by_cases hown : ∃ member, model.Defines id symbol member
    · exact .inl hown
    · exact .inr (hpartitioned.not_countsTwice (not_exists.mp hown) hright)
  · rintro (hown | honce)
    · exact
        { own := fun _ => hpartitioned.findShortSymbol_own
          prereqs := fun habsent => absurd hown (not_exists.mpr habsent) }
    · exact hfinds honce

/-! ## A prereq that is declared twice -/

/-- Declares `Ant` twice. -/
def beetle : Parcel :=
  { bee with prereqs := [⟨"Ant", none⟩, ⟨"Ant", none⟩] }

/-- `Ant` with the class `Worker`, and `Bee`, which declares `Ant` twice. -/
def twiceDeclared : Model :=
  leftBy ((Call.addClass ⟨0⟩ { name := "Worker" }).run
    (leftBy ((Call.register beetle).run (leftBy ((Call.register ant).run {})))))

theorem twiceDeclared_reachable : twiceDeclared.Reachable := by
  have hbeetle : beetle.WellFormed :=
    { bee_wellFormed with prereqs := by unfold Parcel.NamesParcels; decide }
  exact .call (.call (.call .empty ant_wellFormed) hbeetle) (mem_parcelIds.mpr (by decide))

theorem twiceDeclared_lookup :
    (twiceDeclared.findShortSymbol ⟨1⟩ "Worker").1 = none ∧
      (twiceDeclared.findShortSymbol ⟨1⟩ "Worker").2.warnings =
        [.ambiguousSymbol "Worker" "ant_Worker" "ant_Worker"] ∧
      twiceDeclared.classesOf ⟨1⟩ = [] ∧
      twiceDeclared.definingPrereqs ⟨1⟩ "Worker" = [⟨0⟩, ⟨0⟩] ∧
      twiceDeclared.definers ⟨1⟩ "Worker" = [⟨0⟩] := by
  decide

theorem twiceDeclared_absent (member : ClassId) :
    ¬ twiceDeclared.Defines ⟨1⟩ "Worker" member := by
  obtain ⟨-, -, hclasses, -⟩ := twiceDeclared_lookup
  rintro ⟨hmember, -⟩
  simp [hclasses] at hmember

theorem twiceDeclared_misses_worker :
    twiceDeclared.Reachable ∧ ¬ twiceDeclared.FindsShortSymbol ⟨1⟩ "Worker" ∧
      twiceDeclared.FindsShortSymbol ⟨0⟩ "Worker" := by
  obtain ⟨-, -, -, hcounted, hdefiners⟩ := twiceDeclared_lookup
  obtain ⟨hiff, -⟩ := findsShortSymbol_iff twiceDeclared_reachable ⟨1⟩ "Worker"
  obtain ⟨-, hnodup⟩ := findsShortSymbol_iff twiceDeclared_reachable ⟨0⟩ "Worker"
  refine ⟨twiceDeclared_reachable, fun hfinds => ?_, hnodup (by decide)⟩
  rcases hiff.mp hfinds with ⟨member, hdefines⟩ | honce
  · exact twiceDeclared_absent member hdefines
  · exact honce ⟨⟨0⟩, [], hcounted, fun next rest hnext => by simp [hdefiners] at hnext⟩

/-- A parcel that is declared as prereq twice hides its own classes. -/
theorem shortSymbols_not_always_found :
    ¬ ∀ model : Model, model.Reachable → ∀ id ∈ model.parcelIds, ∀ symbol,
      model.FindsShortSymbol id symbol := by
  intro hallFound
  have hfinds := hallFound twiceDeclared twiceDeclared_reachable ⟨1⟩ (by decide) "Worker"
  obtain ⟨hnone, -, -, -, hdefiners⟩ := twiceDeclared_lookup
  have hanswer := hfinds.prereqs twiceDeclared_absent
  rw [hdefiners] at hanswer
  obtain ⟨member, -, hfound⟩ := hanswer
  simp [hfound] at hnone

end Parcels.Model
