import Parcels.Proofs.Json.Reading
import Parcels.Proofs.Model.PrereqClosure

/-!
# Host data of a parcel

A host data file speaks of one parcel and its classes.  Whether it is taken or
not, nothing else changes.  It is taken if each of its entries fits the parcel,
and then the last word on the host module and on each class counts.
-/

namespace Parcels.Model

variable {model : Model} {id : ParcelId} {path : String}
variable {names more : List String} {entries further : List (String × Json)}
variable {before between after : HostData}

/-! ## What host data says -/

/-- The name that an entry gives to the host module. -/
def moduleNames : String × Json → List String
  | ("host_module", .string name) => [name]
  | _ => []

/-- What an entry says about classes. -/
def classEntries : String × Json → List (String × Json)
  | ("classes", .hash entries) => entries
  | _ => []

/-- The data that an entry has for its class; `null` stands for no entries. -/
def givenData : Json → List (String × Json)
  | .hash entries => entries
  | _ => []

/-- The data that class entries have for the class of a name, in source order. -/
def dataFor (name : String) (entries : List (String × Json)) : List (List (String × Json)) :=
  (entries.filter fun entry => entry.1 = name).map fun entry => givenData entry.2

/-- The entry names a class of the parcel and has data for it. -/
structure FitsClass (model : Model) (id : ParcelId) (entry : String × Json) : Prop where
  named : ∃ member ∈ model.classesOf id, model.className member = entry.1
  typed : entry.2 = .null ∨ ∃ data, entry.2 = .hash data

/-- The entry names a host module or has entries for classes of the parcel. -/
inductive FitsParcel (model : Model) (id : ParcelId) : String × Json → Prop where
  | hostModule {name : String} : FitsParcel model id ("host_module", .string name)
  | classes {entries : List (String × Json)}
      (fit : ∀ entry ∈ entries, model.FitsClass id entry) :
      FitsParcel model id ("classes", .hash entries)

theorem fitsParcel_iff {entry : String × Json} :
    model.FitsParcel id entry ↔ (∃ name, entry = ("host_module", .string name)) ∨
      ∃ entries, entry = ("classes", .hash entries) ∧
        ∀ entry ∈ entries, model.FitsClass id entry := by
  constructor
  · rintro (_ | ⟨fit⟩)
    · exact .inl ⟨_, rfl⟩
    · exact .inr ⟨_, rfl, fit⟩
  · rintro (⟨name, rfl⟩ | ⟨entries, rfl, fit⟩)
    · exact .hostModule
    · exact .classes fit

/-! ## Noting down -/

/-- Names of the host module and entries for classes of the parcel are noted
down, the last ones counting. -/
structure Notes (model : Model) (id : ParcelId) (names : List String)
    (entries : List (String × Json)) (before after : HostData) : Prop where
  ownModule : after.modules.lookup id = names.getLast?.or (before.modules.lookup id)
  otherModules : ∀ other, other ≠ id → after.modules.lookup other = before.modules.lookup other
  ownData : ∀ member ∈ model.classesOf id, after.classes.lookup member =
    (dataFor (model.className member) entries).getLast?.or (before.classes.lookup member)
  otherData : ∀ member ∉ model.classesOf id,
    after.classes.lookup member = before.classes.lookup member

theorem Notes.refl (model : Model) (id : ParcelId) (host : HostData) :
    model.Notes id [] [] host host where
  ownModule := rfl
  otherModules _ _ := rfl
  ownData _ _ := rfl
  otherData _ _ := rfl

theorem dataFor_append (name : String) (entries further : List (String × Json)) :
    dataFor name (entries ++ further) = dataFor name entries ++ dataFor name further := by
  simp [dataFor]

theorem Notes.trans (hfirst : model.Notes id names entries before between)
    (hsecond : model.Notes id more further between after) :
    model.Notes id (names ++ more) (entries ++ further) before after where
  ownModule := by
    rw [hsecond.ownModule, hfirst.ownModule, List.getLast?_append, Option.or_assoc]
  otherModules other hother :=
    (hsecond.otherModules other hother).trans (hfirst.otherModules other hother)
  ownData member hmember := by
    rw [hsecond.ownData member hmember, hfirst.ownData member hmember, dataFor_append,
      List.getLast?_append, Option.or_assoc]
  otherData member hmember :=
    (hsecond.otherData member hmember).trans (hfirst.otherData member hmember)

theorem Notes.hostModule (model : Model) (id : ParcelId) (name : String) (host : HostData) :
    model.Notes id [name] [] host { host with modules := (id, name) :: host.modules } where
  ownModule := by simp
  otherModules other hother := by simp [List.lookup_cons, beq_false_of_ne hother]
  ownData _ _ := rfl
  otherData _ _ := rfl

theorem Notes.classEntry (hpartitioned : model.Partitioned) {member : ClassId}
    (hmember : member ∈ model.classesOf id) (value : Json) (host : HostData) :
    model.Notes id [] [(model.className member, value)] host
      { host with classes := (member, givenData value) :: host.classes } where
  ownModule := rfl
  otherModules _ _ := rfl
  ownData other hother := by
    by_cases hsame : other = member
    · subst hsame
      simp [dataFor]
    · have hname : model.className member ≠ model.className other := fun hname =>
        hsame (hpartitioned.eq_of_className_eq hother hmember hname.symm)
      simp [dataFor, hname, List.lookup_cons, beq_false_of_ne hsame]
  otherData other hother := by
    have hne : other ≠ member := fun hsame => hother (hsame ▸ hmember)
    simp [List.lookup_cons, beq_false_of_ne hne]

/-- An action that notes names and entries down just when a condition holds.
Otherwise it fails, with some noted down. -/
def NotesWhen (model : Model) (id : ParcelId) (condition : Prop) (names : List String)
    (entries : List (String × Json)) (host : HostData)
    (outcome : EStateM.Result Error HostData Unit) : Prop :=
  Ends outcome (fun _ after => condition ∧ model.Notes id names entries host after)
    (fun _ after => ¬ condition ∧ ∃ names entries, model.Notes id names entries host after)

/-! ## Entries one by one -/

theorem applyClassEntry_notes (hpartitioned : model.Partitioned) (entry : String × Json)
    (host : HostData) :
    model.NotesWhen id (model.FitsClass id entry) [] [entry] host
      (model.applyClassEntry id path entry host) := by
  obtain ⟨name, value⟩ := entry
  rw [applyClassEntry]
  cases hfetch : model.fetchClass? id name with
  | none =>
      refine ⟨fun hfits => ?_, [], [], .refl model id host⟩
      obtain ⟨member, hmember, hname⟩ := hfits.named
      rw [hpartitioned.fetchClass?_eq_some_iff.mpr ⟨hmember, hname⟩] at hfetch
      cases hfetch
  | some member =>
      obtain ⟨hmember, rfl⟩ := hpartitioned.fetchClass?_eq_some_iff.mp hfetch
      cases value with
      | hash data =>
          exact ⟨⟨⟨member, hmember, rfl⟩, .inr ⟨data, rfl⟩⟩, .classEntry hpartitioned hmember _ _⟩
      | null => exact ⟨⟨⟨member, hmember, rfl⟩, .inl rfl⟩, .classEntry hpartitioned hmember _ _⟩
      | string text =>
          exact ⟨fun hfits => by simpa using hfits.typed, [], [], .refl model id host⟩
      | boolean value =>
          exact ⟨fun hfits => by simpa using hfits.typed, [], [], .refl model id host⟩

/-- A loop notes down what its items give, if all of them fit. -/
theorem forM_notes {Item : Type} {items : List Item} {body : Item → Action HostData Unit}
    {fits : Item → Prop} {names : Item → List String} {given : Item → List (String × Json)}
    (hbody : ∀ item host, model.NotesWhen id (fits item) (names item) (given item) host
      (body item host)) (host : HostData) :
    model.NotesWhen id (∀ item ∈ items, fits item) (items.flatMap names) (items.flatMap given)
      host (items.forM body host) := by
  refine Ends.forM (fun done after => (∀ item ∈ done, fits item) ∧
    model.Notes id (done.flatMap names) (done.flatMap given) host after) ?_
    ⟨List.forall_mem_nil _, .refl model id host⟩
  rintro done item rest during rfl ⟨hdone, hnotes⟩
  refine (hbody item during).mono ?_ ?_
  · rintro _ after ⟨hitem, hnext⟩
    refine ⟨by simpa [or_imp, forall_and] using ⟨hdone, hitem⟩, ?_⟩
    simpa using hnotes.trans hnext
  · rintro _ after ⟨hitem, names, given, hnext⟩
    exact ⟨fun hall => hitem (hall item (by simp)), _, _, hnotes.trans hnext⟩

theorem applyClassEntries_notes (hpartitioned : model.Partitioned)
    (entries : List (String × Json)) (host : HostData) :
    model.NotesWhen id (∀ entry ∈ entries, model.FitsClass id entry) [] entries host
      (entries.forM (model.applyClassEntry id path) host) := by
  have hnames : entries.flatMap (fun _ => ([] : List String)) = [] := by simp
  have hgiven : entries.flatMap (fun entry => [entry]) = entries := by simp
  have hnotes : model.NotesWhen id (∀ entry ∈ entries, model.FitsClass id entry)
      (entries.flatMap fun _ => []) (entries.flatMap fun entry => [entry]) host
      (entries.forM (model.applyClassEntry id path) host) :=
    forM_notes (applyClassEntry_notes hpartitioned) host
  rwa [hnames, hgiven] at hnotes

theorem applyHostEntry_notes (hpartitioned : model.Partitioned) (entry : String × Json)
    (host : HostData) :
    model.NotesWhen id (model.FitsParcel id entry) (moduleNames entry) (classEntries entry) host
      (model.applyHostEntry id path entry host) := by
  fun_cases applyHostEntry model id path entry with
  | case1 name => exact ⟨.hostModule, .hostModule model id name host⟩
  | case2 value hvalue =>
      refine ⟨fun hfits => ?_, [], [], .refl model id host⟩
      obtain ⟨name, hname⟩ : ∃ name, value = .string name := by simpa [fitsParcel_iff] using hfits
      exact hvalue name hname
  | case3 entries =>
      refine (applyClassEntries_notes hpartitioned entries host).mono ?_ ?_
      · rintro _ after ⟨hfit, hnotes⟩
        exact ⟨.classes hfit, hnotes⟩
      · rintro _ after ⟨hfit, hnotes⟩
        exact ⟨by simpa [fitsParcel_iff] using hfit, hnotes⟩
  | case4 value hvalue =>
      refine ⟨fun hfits => ?_, [], [], .refl model id host⟩
      obtain ⟨entries, hentries, -⟩ : ∃ entries, value = .hash entries ∧ _ := by
        simpa [fitsParcel_iff] using hfits
      exact hvalue entries hentries
  | case5 key value hname hmodule hhash hclasses =>
      refine ⟨fun hfits => ?_, [], [], .refl model id host⟩
      cases hfits with
      | hostModule => exact hmodule rfl
      | classes => exact hclasses rfl

/-! ## Whole texts -/

/-- Of the model nothing changes but the host data, and of that only what is
about the parcel and its classes. -/
structure KeepsOthers (model : Model) (id : ParcelId) (after : Model) : Prop where
  rest : after = { model with host := after.host }
  modules : ∀ other, other ≠ id → after.hostModule? other = model.hostModule? other
  data : ∀ member ∉ model.classesOf id, after.hostData? member = model.hostData? member

/-- The last name given to the host module counts, and for each class of the
parcel the last entry with its name, whatever hash it stands in. -/
structure TakesLast (model : Model) (id : ParcelId) (entries : List (String × Json))
    (after : Model) : Prop where
  hostModule : after.hostModule? id =
    (entries.flatMap moduleNames).getLast?.or (model.hostModule? id)
  hostData : ∀ member ∈ model.classesOf id, after.hostData? member =
    (dataFor (model.className member) (entries.flatMap classEntries)).getLast?.or
      (model.hostData? member)

theorem Notes.keepsOthers {host : HostData}
    (hnotes : model.Notes id names entries model.host host) :
    model.KeepsOthers id { model with host := host } where
  rest := rfl
  modules := hnotes.otherModules
  data := hnotes.otherData

/-- The text is a hash whose entries all fit the parcel. -/
def Takes (model : Model) (id : ParcelId) (text : String) : Prop :=
  ∃ entries, Json.Document text.toList (.hash entries) ∧
    ∀ entry ∈ entries, model.FitsParcel id entry

theorem KeepsOthers.refl (model : Model) (id : ParcelId) : model.KeepsOthers id model where
  rest := rfl
  modules _ _ := rfl
  data _ _ := rfl

theorem not_takes_of_parse? {text : String}
    (hparse : ∀ entries, Json.parse? text ≠ some (.hash entries)) : ¬ model.Takes id text := by
  rintro ⟨entries, hdocument, -⟩
  exact hparse entries (Json.parse?_eq_some_iff.mpr hdocument)

/-- A text stands for one hash only, so the fit of its entries is settled. -/
theorem takes_iff {text : String} (hparse : Json.parse? text = some (.hash entries)) :
    model.Takes id text ↔ ∀ entry ∈ entries, model.FitsParcel id entry := by
  constructor
  · rintro ⟨others, hdocument, hfit⟩
    rw [Json.parse?_eq_some_iff.mpr hdocument] at hparse
    cases hparse
    exact hfit
  · exact fun hfit => ⟨entries, Json.parse?_eq_some_iff.mp hparse, hfit⟩

theorem applyHostData_ends (hpartitioned : model.Partitioned) (id : ParcelId)
    (path text : String) :
    Ends (applyHostData id path text model)
      (fun _ after => model.KeepsOthers id after ∧ model.Takes id text ∧
        ∀ entries, Json.Document text.toList (.hash entries) → model.TakesLast id entries after)
      (fun _ after => model.KeepsOthers id after ∧ ¬ model.Takes id text) := by
  have hnotes : ∀ entries : List (String × Json), model.NotesWhen id
      (∀ entry ∈ entries, model.FitsParcel id entry) (entries.flatMap moduleNames)
      (entries.flatMap classEntries) model.host
      (entries.forM (model.applyHostEntry id path) model.host) :=
    fun entries => forM_notes (applyHostEntry_notes hpartitioned) model.host
  fun_cases applyHostData id path text model with
  | case1 hnone => exact ⟨.refl model id, not_takes_of_parse? (by simp [hnone])⟩
  | case2 entries hhash _ host hrun =>
      have hends := hnotes entries
      rw [hrun] at hends
      obtain ⟨hfit, happlied⟩ := hends
      refine ⟨happlied.keepsOthers, (takes_iff hhash).mpr hfit, fun others hdocument => ?_⟩
      rw [Json.parse?_eq_some_iff.mpr hdocument] at hhash
      cases hhash
      exact ⟨happlied.ownModule, happlied.ownData⟩
  | case3 entries hhash error host hrun =>
      have hends := hnotes entries
      rw [hrun] at hends
      obtain ⟨hunfit, _, _, happlied⟩ := hends
      exact ⟨happlied.keepsOthers, fun htakes => hunfit ((takes_iff hhash).mp htakes)⟩
  | case4 value hvalue hparse =>
      exact ⟨.refl model id, not_takes_of_parse? fun entries hhash => by grind⟩

/-- Host data changes nothing but what is about the parcel and its classes.  It
is taken just when all of its entries fit, and then the last ones count. -/
theorem applyHostData_takes (hreachable : model.Reachable) (id : ParcelId)
    (path text : String) :
    model.KeepsOthers id (leftBy (applyHostData id path text model)) ∧
    ((∃ after, applyHostData id path text model = .ok () after) ↔ model.Takes id text) ∧
    ∀ after entries, applyHostData id path text model = .ok () after →
      Json.Document text.toList (.hash entries) → model.TakesLast id entries after := by
  have hends := applyHostData_ends hreachable.sound.partitioned id path text
  refine ⟨?_, ?_, fun after entries hrun hdocument => ?_⟩
  · exact Ends.leftBy_iff.mp (hends.mono (fun _ _ => And.left) fun _ _ => And.left)
  · have htakes : Ends (applyHostData id path text model) (fun _ _ => model.Takes id text)
        (fun _ _ => ¬ model.Takes id text) :=
      hends.mono (fun _ _ hafter => hafter.2.1) fun _ _ hafter => hafter.2
    exact htakes.exists_ok_iff fun _ hfit => hfit
  · exact (hends.of_eq_ok hrun).2.2 entries hdocument

/-! ## Host data of a sorted parcel -/

def queenData : String :=
  "\x7b\"host_module\": \"Nest\", \"classes\": \x7b\"Queen\": \x7b\"role\": null\x7d\x7d\x7d"

/-- `Worker` comes up in two hashes. -/
def workerData : String :=
  "\x7b\"classes\": \x7b\"Worker\": \x7b\"a\": null\x7d\x7d,\"classes\": \x7b\"Worker\":null\x7d\x7d"

/-- `Drone` is no class of `Ant`. -/
def droneData : String :=
  "\x7b\"host_module\": \"Pond\", \"classes\": \x7b\"Drone\": null\x7d\x7d"

/-- `Worker` of `Ant` is declared before its parent `Queen`, and sorted after
it.  Then host data is applied. -/
def colony : Model :=
  leftBy ((Call.applyHostData ⟨0⟩ "host.json" queenData).run
    (leftBy ((Call.connectAndSort ⟨0⟩).run
      (leftBy ((Call.addClass ⟨0⟩ { name := "Queen" }).run
        (leftBy ((Call.addClass ⟨0⟩ { name := "Worker", parent := some "Queen" }).run hive)))))))

theorem colony_reachable : colony.Reachable := by
  refine .call (.call (.call (.call (.call (.call .empty ant_wellFormed) bee_wellFormed) ?_) ?_)
    ?_) ?_
  all_goals exact mem_parcelIds.mpr (by decide)

theorem colony_takes :
    Ends (applyHostData ⟨0⟩ "host.json" workerData colony)
      (fun _ after => after.hostModule? ⟨0⟩ = some "Nest" ∧
        (after.hostData? ⟨0⟩).map (List.map Prod.fst) = some [] ∧
        (after.hostData? ⟨1⟩).map (List.map Prod.fst) = some ["role"])
      (fun _ _ => False) := by
  decide +kernel

theorem colony_refuses :
    Ends (applyHostData ⟨0⟩ "host.json" droneData colony) (fun _ _ => False)
      (fun _ after => after.hostModule? ⟨0⟩ = some "Pond") := by
  decide +kernel

theorem colony_host_data :
    colony.Reachable ∧ colony.classesOf ⟨0⟩ = [⟨1⟩, ⟨0⟩] ∧
    (∃ after entries, applyHostData ⟨0⟩ "host.json" workerData colony = .ok () after ∧
      Json.Document workerData.toList (.hash entries) ∧ colony.TakesLast ⟨0⟩ entries after ∧
      after.hostModule? ⟨0⟩ = some "Nest" ∧
      (after.hostData? ⟨0⟩).map (List.map Prod.fst) = some [] ∧
      (after.hostData? ⟨1⟩).map (List.map Prod.fst) = some ["role"]) ∧
    ¬ colony.Takes ⟨0⟩ droneData ∧
    colony.KeepsOthers ⟨0⟩ (leftBy (applyHostData ⟨0⟩ "host.json" droneData colony)) := by
  obtain ⟨_, after, hrun, hsays⟩ := colony_takes.exists_ok
  obtain ⟨-, htakes, hlast⟩ := applyHostData_takes colony_reachable ⟨0⟩ "host.json" workerData
  obtain ⟨hkeeps, hfails, -⟩ := applyHostData_takes colony_reachable ⟨0⟩ "host.json" droneData
  obtain ⟨entries, hdocument, -⟩ := htakes.mp ⟨after, hrun⟩
  refine ⟨colony_reachable, by decide +kernel, ⟨after, entries, hrun, hdocument,
    hlast after entries hrun hdocument, hsays⟩, fun htaken => ?_, hkeeps⟩
  obtain ⟨after, hok⟩ := hfails.mpr htaken
  exact colony_refuses.of_eq_ok hok

end Parcels.Model
