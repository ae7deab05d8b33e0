import Parcels.Proofs.Graph.Postorder
import Parcels.Proofs.Model.ClassSorting

/-!
# All classes in order

The classes of a model are listed parcel by parcel, so the place of a class is
decided by the place of its parcel first.  Parents come first within a parcel
once it is sorted; across parcels this depends on the order of the parcels,
which prereq cycles can turn round.
-/

namespace Parcels.Model

open Parcels.Graph

/-- The parcels of a model in the order in which their classes are listed. -/
def parcelOrder (model : Model) : List ParcelId :=
  Graph.postorder model.prereqParcels model.parcels.size model.parcelIds

/-- Every linked parent is listed before the child. -/
def ParentsFirst (model : Model) : Prop :=
  ∀ child parent, model.parent? child = some parent →
    Precedes model.orderedClasses parent child

/-- No class is its own ancestor. -/
def AncestryAcyclic (model : Model) : Prop :=
  ∀ id, ¬ Relation.TransGen
    (fun child parent => model.parent? child = some parent) id id

/-- Where a class of a parcel on a prereq cycle has a parent in another parcel,
that parcel comes first. -/
def CyclesKeepOrder (model : Model) : Prop :=
  ∀ child parent, model.parent? child = some parent →
    OnCycle model.prereqParcels (model.owner child) →
      model.owner parent ≠ model.owner child →
        Precedes model.parcelOrder (model.owner parent) (model.owner child)

variable {model : Model}

theorem nodup_parcelOrder (model : Model) : model.parcelOrder.Nodup :=
  nodup_postorder (fun id _ => model.prereqParcels_subset id) (by simp)

theorem mem_parcelOrder {id : ParcelId} :
    id ∈ model.parcelOrder ↔ id ∈ model.parcelIds :=
  mem_postorder_iff (fun id _ => model.prereqParcels_subset id) (by simp)

/-- A parcel that does not require itself comes after all it requires. -/
theorem precedes_parcelOrder {id required : ParcelId} (hid : id ∈ model.parcelIds)
    (hacyclic : ¬ OnCycle model.prereqParcels id)
    (hbeyond : ReachesBeyond model.prereqParcels id required) :
    Precedes model.parcelOrder required id :=
  precedes_postorder (fun id _ => model.prereqParcels_subset id) (by simp) hid
    hacyclic hbeyond

/-- Classes of one parcel are in the order of its list. -/
theorem precedes_orderedClasses_of_precedes {id : ParcelId} {left right : ClassId}
    (hid : id ∈ model.parcelIds)
    (hprecedes : Precedes (model.classesOf id) left right) :
    Precedes model.orderedClasses left right := by
  obtain ⟨before, after, hsplit⟩ :=
    List.append_of_mem (mem_parcelOrder.mpr hid)
  apply hprecedes.mono
  change (model.classesOf id).Sublist (model.parcelOrder.flatMap model.classesOf)
  rw [hsplit, List.flatMap_append, List.flatMap_cons]
  exact (List.sublist_append_left _ _).trans (List.sublist_append_right _ _)

section Ordered

variable (hpartitioned : model.Partitioned)

include hpartitioned

theorem mem_orderedClasses {member : ClassId} :
    member ∈ model.orderedClasses ↔ member ∈ model.classIds := by
  refine List.mem_flatMap.trans ⟨?_, fun hmember => ?_⟩
  · rintro ⟨id, _, hmember⟩
    exact hpartitioned.mem_classIds_of_mem hmember
  · exact ⟨model.owner member,
      mem_parcelOrder.mpr (hpartitioned.owner_known member hmember),
      hpartitioned.mem_classesOf_owner hmember⟩

theorem nodup_orderedClasses : model.orderedClasses.Nodup := by
  refine List.nodup_flatMap.mpr ⟨fun id _ => hpartitioned.nodup id, ?_⟩
  apply (nodup_parcelOrder model).imp
  intro left right hne member hleft hright
  exact hne ((hpartitioned.owner_of_mem hleft).symm.trans
    (hpartitioned.owner_of_mem hright))

/-- Classes of different parcels are in the order of their parcels. -/
theorem precedes_orderedClasses_iff {left right : ClassId}
    (hleft : left ∈ model.classIds) (hright : right ∈ model.classIds)
    (hne : model.owner left ≠ model.owner right) :
    Precedes model.orderedClasses left right ↔
      Precedes model.parcelOrder (model.owner left) (model.owner right) := by
  have hlift : ∀ {first second}, first ∈ model.classIds → second ∈ model.classIds →
      Precedes model.parcelOrder (model.owner first) (model.owner second) →
        Precedes model.orderedClasses first second := fun hfirst hsecond horder =>
    horder.flatMap (hpartitioned.mem_classesOf_owner hfirst)
      (hpartitioned.mem_classesOf_owner hsecond)
  refine ⟨fun hprecedes => ?_, hlift hleft hright⟩
  rcases Precedes.total
    (mem_parcelOrder.mpr (hpartitioned.owner_known left hleft))
    (mem_parcelOrder.mpr (hpartitioned.owner_known right hright)) hne
    with hforward | hback
  · exact hforward
  · exact absurd (hlift hright hleft hback)
      (hprecedes.asymm (nodup_orderedClasses hpartitioned))

theorem ParentsFirst.ancestryAcyclic (hfirst : model.ParentsFirst) :
    model.AncestryAcyclic := by
  intro id hcycle
  have hordered : ∀ ancestor, Relation.TransGen
      (fun child parent => model.parent? child = some parent) id ancestor →
        Precedes model.orderedClasses ancestor id := by
    intro ancestor hpath
    induction hpath with
    | single hlast => exact hfirst _ _ hlast
    | tail _ hlast ih =>
        exact (hfirst _ _ hlast).trans (nodup_orderedClasses hpartitioned) ih
  exact Precedes.irrefl (nodup_orderedClasses hpartitioned) (hordered id hcycle)

/-- Once every parcel lists parents first, only prereq cycles can put a child
before its parent. -/
theorem parentsFirst_iff (hlinked : model.SoundlyLinked)
    (hsorted : ∀ id, model.ListsParentsFirst id) :
    model.ParentsFirst ↔ model.CyclesKeepOrder := by
  have hknown : ∀ {child parent}, model.parent? child = some parent →
      child ∈ model.classIds ∧ parent ∈ model.classIds := fun hparent =>
    hlinked.known _ (mem_links_of_parent? hparent)
  constructor
  · intro hfirst child parent hparent _ hne
    exact (precedes_orderedClasses_iff hpartitioned (hknown hparent).2
      (hknown hparent).1 hne).mp (hfirst child parent hparent)
  · intro hkeep child parent hparent
    obtain ⟨hchildKnown, hparentKnown⟩ := hknown hparent
    have howner := hpartitioned.owner_known child hchildKnown
    by_cases hsame : model.owner parent = model.owner child
    · exact precedes_orderedClasses_of_precedes howner
        (hsorted _ parent child ⟨hparent, hsame, rfl⟩)
    · refine (precedes_orderedClasses_iff hpartitioned hparentKnown hchildKnown
        hsame).mpr ?_
      by_cases hcycle : OnCycle model.prereqParcels (model.owner child)
      · exact hkeep child parent hparent hcycle hsame
      · apply precedes_parcelOrder howner hcycle
        have hpath : Reaches model.prereqParcels (model.owner child)
            (model.owner parent) := hlinked.scope _ (mem_links_of_parent? hparent)
        exact (Relation.reflTransGen_iff_eq_or_transGen.mp hpath).resolve_left hsame

end Ordered

end Parcels.Model
