import Parcels.Proofs.Model.SortedModels

/-!
# Links to what a name finds

A link leads to the class that the declared parent name finds from the parcel
of the child.  What a name finds depends on the parcels and the classes alone,
not on links or on the order of lists, so this stays so while parcels are
sorted.  When no class lacks its link, links and names agree throughout.
-/

namespace Parcels.Model

variable {model other : Model} {id : ParcelId}

/-- Every link leads to what the declared parent name of the child finds. -/
def LinkedAsFound (model : Model) : Prop :=
  ∀ link ∈ model.links, ∃ name,
    (model.classAt link.child).parentName = some name ∧
      model.findInScope? (model.owner link.child) name = some link.parent

theorem scope_congr (hspecs : other.specs = model.specs) :
    other.scope = model.scope := by
  funext id
  rw [scope, scope, prereqParcels_congr hspecs, ← size_specs, hspecs, size_specs]

theorem Partitioned.fetchClass?_congr (hpartitioned : model.Partitioned)
    (hpartitioned' : other.Partitioned) (hclasses : other.classes = model.classes) :
    other.fetchClass? = model.fetchClass? := by
  funext id name
  ext member
  rw [hpartitioned.fetchClass?_eq_some_iff, hpartitioned'.fetchClass?_eq_some_iff,
    hpartitioned.mem_classesOf_iff, hpartitioned'.mem_classesOf_iff, classIds, classIds,
    hclasses, owner_congr hclasses, className_congr hclasses]

theorem Partitioned.findInScope?_congr (hpartitioned : model.Partitioned)
    (hpartitioned' : other.Partitioned) (hspecs : other.specs = model.specs)
    (hclasses : other.classes = model.classes) :
    other.findInScope? = model.findInScope? := by
  funext id name
  rw [findInScope?, findInScope?, scope_congr hspecs,
    hpartitioned.fetchClass?_congr hpartitioned' hclasses]

theorem LinkedAsFound.congr (hfound : model.LinkedAsFound)
    (hpartitioned : model.Partitioned) (hpartitioned' : other.Partitioned)
    (hspecs : other.specs = model.specs) (hclasses : other.classes = model.classes)
    (hlinks : other.links = model.links) : other.LinkedAsFound := by
  rw [LinkedAsFound, hlinks, classAt_congr hclasses, owner_congr hclasses,
    hpartitioned.findInScope?_congr hpartitioned' hspecs hclasses]
  exact hfound

/-- New links lead to what the names find. -/
theorem LinkedAsFound.makesLinks (hfound : model.LinkedAsFound)
    (hpartitioned : model.Partitioned) (hlinks : MakesLinks id model other) :
    other.LinkedAsFound := by
  induction hlinks with
  | refl => exact hfound
  | @tail between _ hbefore hlink ih =>
      have hpart : between.Partitioned := by
        rw [MakesLinks.frame hbefore]
        exact hpartitioned.congr rfl rfl
      cases hlink with
      | @link child parent name hmember _ hdeclared hfinds _ =>
          intro link hlink
          rcases List.mem_append.mp hlink with hold | hlast
          · exact ih link hold
          · obtain rfl := List.mem_singleton.mp hlast
            refine ⟨name, hdeclared, ?_⟩
            have howner := hpart.owner_of_mem hmember
            change between.findInScope? (between.owner child) name = some parent
            rw [howner]
            exact hfinds

/-- When nothing that a class declares is missing, it is linked to the class
that its parent name finds. -/
theorem Sound.parent?_eq_findInScope? (hsound : model.Sound)
    (hfound : model.LinkedAsFound) {child : ClassId} {name : String}
    (hfull : model.FullyLinked (model.owner child)) (hchild : child ∈ model.classIds)
    (hdeclared : (model.classAt child).parentName = some name) :
    ∃ parent, model.parent? child = some parent ∧
      model.findInScope? (model.owner child) name = some parent ∧
      (model.classAt parent).isFinal = false := by
  cases hparent : model.parent? child with
  | none =>
      have hmember := hsound.partitioned.mem_classesOf_owner hchild
      rw [hfull child hmember hparent] at hdeclared
      cases hdeclared
  | some parent =>
      have hlink := mem_links_of_parent? hparent
      obtain ⟨declared, hname, hfinds⟩ := hfound _ hlink
      obtain rfl : declared = name := Option.some.inj (hname.symm.trans hdeclared)
      exact ⟨parent, rfl, hfinds, hsound.linked.heritable _ hlink⟩

end Parcels.Model
