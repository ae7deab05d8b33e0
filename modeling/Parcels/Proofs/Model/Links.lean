import Parcels.Model.Inheritance
import Parcels.Proofs.Action
import Parcels.Proofs.Graph.BreadthFirst
import Parcels.Proofs.Model.Classes

/-!
# Links

A link is made once for a class of the parcel that is being connected, to the
class that its declared parent name finds in scope.  A run of links changes
nothing else, so the parent of a class lives in its own parcel or in one that
this parcel leads to.
-/

namespace Parcels.Model

open Parcels.Graph

variable {model other : Model}

/-- One class of a parcel gets its link. -/
inductive MakesLink (id : ParcelId) : Model → Model → Prop
  | link {model : Model} {child parent : ClassId} {parentName : String}
      (member : child ∈ model.classesOf id)
      (unlinked : model.parent? child = none)
      (declared : (model.classAt child).parentName = some parentName)
      (found : model.findInScope? id parentName = some parent)
      (heritable : (model.classAt parent).isFinal = false) :
      MakesLink id model { model with links := model.links ++ [⟨child, parent⟩] }

/-- Links are made for some classes of a parcel, one after another. -/
abbrev MakesLinks (id : ParcelId) : Model → Model → Prop :=
  Relation.ReflTransGen (MakesLink id)

/-- What a run of links leaves as it was. -/
theorem MakesLinks.frame {id : ParcelId} (hlinks : MakesLinks id model other) :
    other = { model with links := other.links } := by
  induction hlinks with
  | refl => rfl
  | tail _ hlink ih =>
      cases hlink with
      | link => rw [ih]

/-! ## Parents and children -/

theorem parent?_congr (hlinks : other.links = model.links) :
    other.parent? = model.parent? := by
  funext child
  rw [parent?, parent?, hlinks]

theorem parent?_eq_none_iff {child : ClassId} :
    model.parent? child = none ↔ child ∉ model.links.map Link.child := by
  simp [parent?]

theorem mem_links_of_parent? {child parent : ClassId}
    (hparent : model.parent? child = some parent) :
    ⟨child, parent⟩ ∈ model.links := by
  obtain ⟨link, hfind, rfl⟩ := Option.map_eq_some_iff.mp hparent
  have hchild : link.child = child := by simpa using List.find?_some hfind
  rw [← hchild]
  exact List.mem_of_find?_eq_some hfind

theorem parent?_eq_some_iff (honce : (model.links.map Link.child).Nodup)
    {child parent : ClassId} :
    model.parent? child = some parent ↔ ⟨child, parent⟩ ∈ model.links := by
  refine ⟨mem_links_of_parent?, fun hlink => ?_⟩
  cases hparent : model.parent? child with
  | none =>
      exact absurd (List.mem_map_of_mem hlink) (parent?_eq_none_iff.mp hparent)
  | some first =>
      have hfirst := mem_links_of_parent? hparent
      have hsame := List.inj_on_of_nodup_map honce hfirst hlink rfl
      rw [Link.mk.injEq] at hsame
      rw [hsame.2]

theorem mem_children_iff (honce : (model.links.map Link.child).Nodup)
    {child parent : ClassId} :
    child ∈ model.children parent ↔ model.parent? child = some parent := by
  rw [parent?_eq_some_iff honce]
  simp only [children, List.mem_map, List.mem_filter, beq_iff_eq]
  constructor
  · rintro ⟨link, ⟨hlink, rfl⟩, rfl⟩
    exact hlink
  · exact fun hlink => ⟨_, ⟨hlink, rfl⟩, rfl⟩

theorem nodup_children (honce : (model.links.map Link.child).Nodup)
    (parent : ClassId) : (model.children parent).Nodup :=
  honce.sublist (List.filter_sublist.map Link.child)

/-- A link joins two classes of the model.  It leads to the parent that the
child declares, which may be inherited from and lives in what the parcel of the
child leads to. -/
structure SoundlyLinked (model : Model) : Prop where
  known : ∀ link ∈ model.links,
    link.child ∈ model.classIds ∧ link.parent ∈ model.classIds
  once : (model.links.map Link.child).Nodup
  declared : ∀ link ∈ model.links,
    (model.classAt link.child).parentName = some (model.className link.parent)
  heritable : ∀ link ∈ model.links, (model.classAt link.parent).isFinal = false
  scope : ∀ link ∈ model.links, Reaches model.prereqParcels
    (model.owner link.child) (model.owner link.parent)

theorem SoundlyLinked.empty : SoundlyLinked {} where
  known := by simp
  once := List.nodup_nil
  declared := by simp
  heritable := by simp
  scope := by simp

/-- Links stay sound while parcels and classes join and the known ones stay as
they are. -/
theorem SoundlyLinked.grow (hsound : model.SoundlyLinked)
    (hlinks : other.links = model.links)
    (hclasses : ∀ id ∈ model.classIds,
      id ∈ other.classIds ∧ other.classAt id = model.classAt id)
    (hprereqs : ∀ id, model.prereqParcels id ⊆ other.prereqParcels id) :
    other.SoundlyLinked := by
  have hends : ∀ link ∈ other.links, link ∈ model.links ∧
      other.classAt link.child = model.classAt link.child ∧
      other.classAt link.parent = model.classAt link.parent := by
    intro link hlink
    rw [hlinks] at hlink
    have hknown := hsound.known link hlink
    exact ⟨hlink, (hclasses _ hknown.1).2, (hclasses _ hknown.2).2⟩
  constructor
  · intro link hlink
    have hknown := hsound.known link (hends link hlink).1
    exact ⟨(hclasses _ hknown.1).1, (hclasses _ hknown.2).1⟩
  · rw [hlinks]
    exact hsound.once
  · intro link hlink
    obtain ⟨hold, hchild, hparent⟩ := hends link hlink
    rw [className, hchild, hparent]
    exact hsound.declared link hold
  · intro link hlink
    obtain ⟨hold, _, hparent⟩ := hends link hlink
    rw [hparent]
    exact hsound.heritable link hold
  · intro link hlink
    obtain ⟨hold, hchild, hparent⟩ := hends link hlink
    rw [owner, owner, hchild, hparent]
    exact (hsound.scope link hold).mono hprereqs

/-- What is found in scope is a class of that name in a parcel that can be
reached. -/
theorem mem_of_findInScope? {id : ParcelId} {name : String} {found : ClassId}
    (hfound : model.findInScope? id name = some found) :
    ∃ visible, Reaches model.prereqParcels id visible ∧
      found ∈ model.classesOf visible ∧ model.className found = name := by
  obtain ⟨visible, hvisible, hfetch⟩ := List.exists_of_findSome?_eq_some hfound
  refine ⟨visible, reaches_of_mem_breadthFirst hvisible,
    List.mem_of_find?_eq_some hfetch, ?_⟩
  simpa using List.find?_some hfetch

/-- New links are as sound as those before them. -/
theorem SoundlyLinked.makesLinks {id : ParcelId} (hsound : model.SoundlyLinked)
    (hpartitioned : model.Partitioned) (hlinks : MakesLinks id model other) :
    other.SoundlyLinked := by
  induction hlinks with
  | refl => exact hsound
  | @tail between _ hbefore hlink ih =>
      have hpart : between.Partitioned := by
        rw [MakesLinks.frame hbefore]
        exact hpartitioned.congr rfl rfl
      cases hlink with
      | @link child parent name hmember hunlinked hdeclared hfound hheritable =>
          obtain ⟨visible, hpath, hparent, hname⟩ := mem_of_findInScope? hfound
          constructor
          · intro link hlink
            rcases List.mem_append.mp hlink with hold | hlast
            · exact ih.known link hold
            · obtain rfl := List.mem_singleton.mp hlast
              exact ⟨hpart.mem_classIds_of_mem hmember,
                hpart.mem_classIds_of_mem hparent⟩
          · rw [List.map_append, List.nodup_append]
            refine ⟨ih.once, by simp, ?_⟩
            rintro _ hold _ hlast rfl
            obtain rfl : _ = child := by simpa using hlast
            exact parent?_eq_none_iff.mp hunlinked hold
          · intro link hlink
            rcases List.mem_append.mp hlink with hold | hlast
            · exact ih.declared link hold
            · obtain rfl := List.mem_singleton.mp hlast
              exact hdeclared.trans (congrArg some hname.symm)
          · intro link hlink
            rcases List.mem_append.mp hlink with hold | hlast
            · exact ih.heritable link hold
            · obtain rfl := List.mem_singleton.mp hlast
              exact hheritable
          · intro link hlink
            rcases List.mem_append.mp hlink with hold | hlast
            · exact ih.scope link hold
            · obtain rfl := List.mem_singleton.mp hlast
              have hpath' : Reaches between.prereqParcels (between.owner child)
                  (between.owner parent) := by
                rw [hpart.owner_of_mem hmember, hpart.owner_of_mem hparent]
                exact hpath
              exact hpath'

end Parcels.Model
