import Parcels.Proofs.Hierarchy.Built
import Parcels.Proofs.Model.OrderedClasses

/-!
# Parents first in a built hierarchy

A build checks the prereqs of what is compiled but not of what is installed, so
included parcels may require each other in a circle.  Only then can a class be
listed before its parent or even be its own ancestor.
-/

namespace Parcels.Hierarchy

open Parcels.Graph Model

variable {files : FileSystem} {dest : Path} {sourceDirs includeDirs : List Path}
variable {built : Workspace}

/-- What leads to a prereq cycle is included, or a check would have failed. -/
theorem Built.included_of_reaches_cycle (hbuilt : Built built) {id other : ParcelId}
    (hcycle : OnCycle built.model.prereqParcels id)
    (hpath : Reaches built.model.prereqParcels other id) :
    (built.model.parcelAt other).included = true := by
  have hsettled := hbuilt.sound.settled
  have hknown : other ∈ built.model.parcelIds := by
    obtain ⟨next, hedge, _⟩ := Relation.TransGen.head'_iff.mp (hcycle.trans_right hpath)
    obtain ⟨prereq, hprereq, _⟩ := mem_prereqParcels.mp hedge
    exact mem_parcelIds_of_mem_prereqs hprereq
  by_contra hincluded
  have hrequired := hbuilt.required other hknown (by simpa using hincluded)
  exact hsettled.acyclic id (hsettled.required_of_reaches hrequired hpath) hcycle

/-- Every class is listed once.  All parents come first just when the order of
the parcels keeps them first across the prereq cycles, which only included
parcels lie on or lead to. -/
theorem build_parents_first_iff
    (hbuilds : Builds files dest sourceDirs includeDirs built) :
    built.model.orderedClasses.Nodup ∧
      (∀ id, id ∈ built.model.orderedClasses ↔ id ∈ built.model.classIds) ∧
      (built.model.AncestryAcyclic ∧ built.model.ParentsFirst ↔
        built.model.CyclesKeepOrder) ∧
      ∀ id, OnCycle built.model.prereqParcels id →
        ∀ other, Reaches built.model.prereqParcels other id →
          (built.model.parcelAt other).included = true := by
  have hbuilt := hbuilds.built
  have hsound := hbuilt.sound
  have hfirst := parentsFirst_iff hsound.partitioned hsound.linked hbuilt.sorted
  refine ⟨nodup_orderedClasses hsound.partitioned,
    fun id => mem_orderedClasses hsound.partitioned, ?_, ?_⟩
  · rw [← hfirst]
    exact ⟨And.right, fun hparents =>
      ⟨hparents.ancestryAcyclic hsound.partitioned, hparents⟩⟩
  · exact fun id hcycle other hpath =>
      hbuilt.included_of_reaches_cycle hcycle hpath

/-! ## Two parcels that require each other -/

/-- The spec of `Ant`, which requires `Bee`. -/
def antSpec : String :=
  "\x7b\"name\": \"Ant\", \"version\": \"v1\", \"prerequisites\": \x7b\"Bee\": null\x7d\x7d"

/-- The spec of `Bee`, which requires `Ant`. -/
def beeSpec : String :=
  "\x7b\"name\": \"Bee\", \"version\": \"v1\", \"prerequisites\": \x7b\"Ant\": null\x7d\x7d"

/-- Installed parcels `Ant` and `Bee` require each other, and a class of `Bee`
inherits from one of `Ant`. -/
def wildNest : FileSystem where
  root := .directory [("inc", .directory
    [("Ant.cfp", .file (.text antSpec) 0),
      ("Bee.cfp", .file (.text beeSpec) 0),
      ("Ant.cfh", .file (.text "parcel Ant; class Worker \x7b\x7d") 0),
      ("Bee.cfh", .file
        (.text "parcel Bee; class Drone inherits Worker \x7b\x7d") 0)] 0)] 0

theorem wildNest_ends :
    Ends (build wildNest ⟨newHierarchy ⟨"autogen"⟩ [] [⟨"inc"⟩], {}⟩)
      (fun _ built => built.model.orderedClasses = [⟨1⟩, ⟨0⟩] ∧
        built.model.links = [⟨⟨1⟩, ⟨0⟩⟩]) (fun _ _ => False) := by
  decide +kernel

theorem wildNest_parent_behind {built : Workspace}
    (horder : built.model.orderedClasses = [⟨1⟩, ⟨0⟩])
    (hlinks : built.model.links = [⟨⟨1⟩, ⟨0⟩⟩]) : ¬ built.model.ParentsFirst := by
  intro hfirst
  have hprecedes := hfirst ⟨1⟩ ⟨0⟩ (by simp [parent?, hlinks])
  rw [horder] at hprecedes
  exact absurd hprecedes (by decide)

theorem wildNest_builds_child_first :
    ∃ built, Builds wildNest ⟨"autogen"⟩ [] [⟨"inc"⟩] built ∧
      built.model.orderedClasses.Nodup ∧ ¬ built.model.CyclesKeepOrder := by
  obtain ⟨_, built, hbuilds, horder, hlinks⟩ := wildNest_ends.exists_ok
  obtain ⟨hnodup, _, hiff, _⟩ := build_parents_first_iff hbuilds
  exact ⟨built, hbuilds, hnodup, fun hkeep =>
    wildNest_parent_behind horder hlinks (hiff.mpr hkeep).2⟩

/-- A build may list a child before its parent. -/
theorem build_not_parents_first :
    ¬ ∀ (files : FileSystem) (dest : Path) (sourceDirs includeDirs : List Path)
        (built : Workspace), Builds files dest sourceDirs includeDirs built →
          built.model.AncestryAcyclic ∧ built.model.ParentsFirst := by
  intro hparentsFirst
  obtain ⟨_, built, hbuilds, horder, hlinks⟩ := wildNest_ends.exists_ok
  exact wildNest_parent_behind horder hlinks (hparentsFirst _ _ _ _ built hbuilds).2

end Parcels.Hierarchy
