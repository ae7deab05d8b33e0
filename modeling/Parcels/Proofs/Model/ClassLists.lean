import Parcels.Proofs.Model.ClassSorting
import Parcels.Proofs.Model.FullSymbols
import Parcels.Proofs.Model.Lasting

/-!
# Class lists

Every class of a model is in one list once, that of its own parcel, however
often the lists have been extended or put in another order.  Within a parcel
names, struct symbols and nicknames tell classes apart, and a declaration is
refused for nothing but a malformed name or one that is taken.
-/

namespace Parcels.Model

variable {model after : Model} {id : ParcelId} {header : ClassHeader}

/-- The class lists of all parcels, and what tells the classes of one list
apart. -/
structure ClassesListed (model : Model) : Prop where
  /-- Together the lists hold every class once. -/
  partition : (model.parcelIds.flatMap model.classesOf).Perm model.classIds
  own_list : ∀ id, ∀ member ∈ model.classesOf id, model.owner member = id
  /-- A class has the id that stands for it. -/
  numbered : ∀ member ∈ model.classIds, (model.classAt member).id = member
  names_nodup : ∀ id, ((model.classesOf id).map model.className).Nodup
  symbols_nodup : ∀ id,
    ((model.classesOf id).map fun member => (model.classAt member).structSymbol).Nodup
  nicknames_nodup : ∀ id,
    ((model.classesOf id).map fun member => (model.classAt member).nickname).Nodup
  /-- The name of a class has the form of one, and its struct symbol is the last
  component. -/
  symbol : ∀ member ∈ model.classIds, ∃ components,
    Name.ClassName (model.className member) components ∧
      components.getLast? = some (model.classAt member).structSymbol.toList

/-- The reasons for which a parcel does not take a declaration. -/
inductive Refused (model : Model) (id : ParcelId) (header : ClassHeader) : Prop
  | name (malformed : ¬ ∃ components, Name.ClassName header.name components)
  | parent {parent : String} (declared : header.parent = some parent)
      (malformed : ¬ ∃ components, Name.ClassName parent components)
  | nickname {nickname : String} (declared : header.nickname = some nickname)
      (malformed : ¬ Name.Identifier nickname.toList)
  | taken {member : ClassId} (listed : member ∈ model.classesOf id)
      (same : model.className member = header.name ∨
        (model.classAt member).structSymbol = header.structSymbol ∨
        (model.classAt member).nickname = header.nickname.getD header.structSymbol)

/-- How a model answers a declaration. -/
structure AnswersDeclaration (model : Model) (id : ParcelId) (header : ClassHeader) : Prop where
  fails_iff : (∃ error after, declareClass id header model = .error error after) ↔
    model.Refused id header
  unchanged : ∀ error after, declareClass id header model = .error error after → after = model
  /-- The class gets the next id and stands behind the others of its parcel. -/
  added : ∀ newId after, declareClass id header model = .ok newId after →
    newId = ⟨model.classes.size⟩ ∧ after.classAt newId = header.inParcel id newId ∧
      after.classesOf id = model.classesOf id ++ [newId]

/-! ## The partition -/

theorem Partitioned.perm_classIds (hpartitioned : model.Partitioned) :
    (model.parcelIds.flatMap model.classesOf).Perm model.classIds := by
  have hnodup : (model.parcelIds.flatMap model.classesOf).Nodup := by
    rw [List.nodup_flatMap]
    refine ⟨fun id _ => hpartitioned.nodup id, ?_⟩
    apply model.nodup_parcelIds.imp
    intro left right hne member hleft hright
    exact hne ((hpartitioned.owner_of_mem hleft).symm.trans (hpartitioned.owner_of_mem hright))
  rw [List.perm_ext_iff_of_nodup hnodup model.nodup_classIds]
  intro member
  rw [List.mem_flatMap]
  constructor
  · intro hmember
    obtain ⟨id, _, hlisted⟩ := hmember
    exact hpartitioned.mem_classIds_of_mem hlisted
  · intro hmember
    exact ⟨_, hpartitioned.owner_known member hmember, hpartitioned.mem_classesOf_owner hmember⟩

/-- A property of classes that no two of a parcel share. -/
theorem Partitioned.nodup_map {Key : Type} {key : ClassId → Key}
    (hpartitioned : model.Partitioned) (id : ParcelId)
    (hclash : ∀ left right, key left = key right →
      clash? (model.classAt left) (model.classAt right) ≠ none) :
    ((model.classesOf id).map key).Nodup := by
  apply (hpartitioned.nodup id).map_on
  intro left hleft right hright hkey
  by_contra hne
  exact hclash left right hkey (hpartitioned.differ id left hleft right hright hne)

theorem Partitioned.classesListed (hpartitioned : model.Partitioned)
    (hnamed : model.WellNamed) : model.ClassesListed where
  partition := hpartitioned.perm_classIds
  own_list := fun _ _ hmember => hpartitioned.owner_of_mem hmember
  numbered := hpartitioned.numbered
  names_nodup := by
    intro id
    apply hpartitioned.nodup_map id
    intro left right hname hnone
    exact (clash?_eq_none_iff.mp hnone).1 hname
  symbols_nodup := by
    intro id
    apply hpartitioned.nodup_map id
    intro left right hsymbol hnone
    exact (clash?_eq_none_iff.mp hnone).2.1 hsymbol
  nicknames_nodup := by
    intro id
    apply hpartitioned.nodup_map id
    intro left right hnickname hnone
    exact (clash?_eq_none_iff.mp hnone).2.2 hnickname
  symbol := by
    intro member hmember
    obtain ⟨components, hname⟩ := Name.isClassName_iff.mp (hnamed.className hmember)
    refine ⟨components, hname, ?_⟩
    rw [List.getLast?_eq_some_getLast hname.nonempty, ← hname.lastComponent_eq]
    rfl

/-! ## Declarations -/

theorem accepts_iff_not_refused : model.Accepts id header ↔ ¬ model.Refused id header := by
  constructor
  · rintro ⟨hwellFormed, hdiffer⟩ hrefused
    cases hrefused with
    | name hmalformed => exact hmalformed (Name.isClassName_iff.mp hwellFormed.name)
    | parent hparent hmalformed =>
        exact hmalformed (Name.isClassName_iff.mp (hwellFormed.parent _ hparent))
    | nickname hnickname hmalformed =>
        exact hmalformed (Name.isIdentifier_iff.mp (hwellFormed.nickname _ hnickname))
    | @taken member hmember hsame =>
        obtain ⟨hname, hsymbol, hnickname⟩ := clash?_eq_none_iff.mp (hdiffer member hmember)
        rcases hsame with hsame | hsame | hsame
        · exact hname hsame
        · exact hsymbol hsame
        · exact hnickname hsame
  · intro hnot
    refine ⟨⟨?_, ?_, ?_⟩, ?_⟩
    · by_contra hname
      exact hnot (.name fun hcomponents => hname (Name.isClassName_iff.mpr hcomponents))
    · intro parent hparent
      by_contra hname
      exact hnot (.parent hparent fun hcomponents =>
        hname (Name.isClassName_iff.mpr hcomponents))
    · intro nickname hnickname
      by_contra hname
      exact hnot (.nickname hnickname fun hidentifier =>
        hname (Name.isIdentifier_iff.mpr hidentifier))
    · intro member hmember
      rw [clash?_eq_none_iff]
      refine ⟨?_, ?_, ?_⟩
      · exact fun hname => hnot (.taken hmember (.inl hname))
      · exact fun hsymbol => hnot (.taken hmember (.inr (.inl hsymbol)))
      · exact fun hnickname => hnot (.taken hmember (.inr (.inr hnickname)))

theorem answersDeclaration (hid : id ∈ model.parcelIds) (header : ClassHeader) :
    model.AnswersDeclaration id header := by
  have hends := declareClass_ends model id header
  rw [accepts_iff_not_refused] at hends
  cases hrun : declareClass id header model with
  | ok newId after =>
      rw [hrun] at hends
      have hadd : model.addClass id header = .ok (newId, after) := by rw [addClass, hrun]
      obtain ⟨rfl, -, hdeclares⟩ := addClass_eq_ok hid hadd
      refine ⟨iff_of_false (by simp [hrun]) hends.2.1, by simp [hrun], ?_⟩
      intro other more hother
      cases hrun.symm.trans hother
      exact ⟨rfl, hdeclares.classAt_new, hdeclares.self⟩
  | error error after =>
      rw [hrun] at hends
      obtain ⟨rfl, hrefused⟩ := hends
      refine ⟨iff_of_true ⟨error, _, hrun⟩ (not_not.mp hrefused), ?_, by simp [hrun]⟩
      intro other more hother
      cases hrun.symm.trans hother
      rfl

/-- Whatever calls have led to a model, failing ones included, its lists hold
every class once, it refuses a declaration just when it must, and the id of a
class stands for this class until the model is emptied. -/
theorem classes_listed_once (hreachable : model.Reachable) :
    model.ClassesListed ∧
      (∀ id ∈ model.parcelIds, ∀ header, model.AnswersDeclaration id header) ∧
      ∀ after, Relation.ReflTransGen Continues model after →
        ∀ member ∈ model.classIds,
          member ∈ after.classIds ∧ after.classAt member = model.classAt member := by
  have hsound := hreachable.sound
  refine ⟨hsound.partitioned.classesListed hreachable.wellNamed, ?_, ?_⟩
  · intro id hid header
    exact answersDeclaration hid header
  · intro after hsteps member hmember
    obtain ⟨_, hlasts⟩ := hsound.lasts hsteps
    exact ⟨hlasts.mem_classIds hmember, hlasts.classAt_eq hmember⟩

/-! ## A nickname that another class has by default -/

/-- The farm with `Cow` listed before `Calf`. -/
def sortedFarm : Model :=
  leftBy ((Call.connectAndSort ⟨0⟩).run farmModel)

/-- A class that would share the nickname of `Cow`, which declares none. -/
def bull : ClassHeader :=
  { name := "Stable::Bull", nickname := some "Cow" }

theorem sortedFarm_classes_listed_once :
    sortedFarm.Reachable ∧ sortedFarm.ClassesListed ∧
      sortedFarm.classesOf ⟨0⟩ = [⟨1⟩, ⟨0⟩] ∧
      sortedFarm.AnswersDeclaration ⟨0⟩ bull ∧ sortedFarm.Refused ⟨0⟩ bull ∧
      Relation.ReflTransGen Continues sortedFarm
        (leftBy ((Call.addClass ⟨0⟩ bull).run sortedFarm)) ∧
      (leftBy ((Call.addClass ⟨0⟩ bull).run sortedFarm)).classAt ⟨1⟩ =
        sortedFarm.classAt ⟨1⟩ := by
  have hfarm : ⟨0⟩ ∈ farmModel.parcelIds := mem_parcelIds.mpr (by decide)
  have hsorted : ⟨0⟩ ∈ sortedFarm.parcelIds := mem_parcelIds.mpr (by decide)
  have hcow : ⟨1⟩ ∈ sortedFarm.classIds := mem_classIds.mpr (by decide)
  have hreachable : sortedFarm.Reachable := by
    refine .call (.call (.call (.call .empty farm_wellFormed) ?_) ?_) hfarm
    all_goals exact mem_parcelIds.mpr (by decide)
  have hstep : Continues sortedFarm (leftBy ((Call.addClass ⟨0⟩ bull).run sortedFarm)) :=
    ⟨.addClass ⟨0⟩ bull, hsorted, by simp, rfl⟩
  have hlisted : ⟨1⟩ ∈ sortedFarm.classesOf ⟨0⟩ := by decide
  have htaken : sortedFarm.Refused ⟨0⟩ bull := .taken hlisted (.inr (.inr (by decide)))
  obtain ⟨hclasses, hanswers, hlast⟩ := classes_listed_once hreachable
  exact ⟨hreachable, hclasses, by decide, hanswers ⟨0⟩ hsorted bull, htaken, .single hstep,
    (hlast _ (.single hstep) ⟨1⟩ hcow).2⟩

end Parcels.Model
