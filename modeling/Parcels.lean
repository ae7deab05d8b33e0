import Parcels.Class
import Parcels.CommandLine
import Parcels.Error
import Parcels.FileSystem
import Parcels.FileSystem.Discovery
import Parcels.FileSystem.Failure
import Parcels.Graph
import Parcels.Header.Body
import Parcels.Header.Fault
import Parcels.Header.Outline
import Parcels.Header.Scanner
import Parcels.Header.Trivia
import Parcels.Header.Word
import Parcels.Hierarchy.Basic
import Parcels.Hierarchy.Build
import Parcels.Hierarchy.Staleness
import Parcels.Json
import Parcels.Json.Cursor
import Parcels.Json.Reader
import Parcels.Main
import Parcels.Model.Basic
import Parcels.Model.HostFile
import Parcels.Model.Inheritance
import Parcels.Model.Prerequisites
import Parcels.Model.Registry
import Parcels.Model.Scope
import Parcels.Model.Symbol
import Parcels.Name
import Parcels.Options
import Parcels.Parcel
import Parcels.Parcel.Spec
import Parcels.Path
import Parcels.Prereq
import Parcels.Proofs.Action
import Parcels.Proofs.Error
import Parcels.Proofs.FileSystem.Discovery
import Parcels.Proofs.FileSystem.Listing
import Parcels.Proofs.FileSystem.Relisting
import Parcels.Proofs.FileSystem.Trees
import Parcels.Proofs.Graph.BreadthFirst
import Parcels.Proofs.Graph.LevelSearch
import Parcels.Proofs.Graph.Postorder
import Parcels.Proofs.Graph.Preorder
import Parcels.Proofs.Graph.Reachability
import Parcels.Proofs.Graph.Routes
import Parcels.Proofs.Graph.SearchOrder
import Parcels.Proofs.Graph.StackWalk
import Parcels.Proofs.Header.ClassBodies
import Parcels.Proofs.Header.ClassHeaders
import Parcels.Proofs.Header.Faults
import Parcels.Proofs.Header.Grammar
import Parcels.Proofs.Header.Joined
import Parcels.Proofs.Header.Outlines
import Parcels.Proofs.Header.Scanner
import Parcels.Proofs.Header.Scanner.Bodies
import Parcels.Proofs.Header.Scanner.Tracks
import Parcels.Proofs.Header.Scanner.Words
import Parcels.Proofs.Header.Words
import Parcels.Proofs.Hierarchy.Accounts
import Parcels.Proofs.Hierarchy.Artifacts
import Parcels.Proofs.Hierarchy.Built
import Parcels.Proofs.Hierarchy.Clashes
import Parcels.Proofs.Hierarchy.Collected
import Parcels.Proofs.Hierarchy.Discovered
import Parcels.Proofs.Hierarchy.ListingOrder
import Parcels.Proofs.Hierarchy.MarkedFiles
import Parcels.Proofs.Hierarchy.ParentsFirst
import Parcels.Proofs.Hierarchy.Propagation
import Parcels.Proofs.Hierarchy.RepeatedMarks
import Parcels.Proofs.Hierarchy.Resolve
import Parcels.Proofs.Json.Cursor
import Parcels.Proofs.Json.Grammar
import Parcels.Proofs.Json.Reading
import Parcels.Proofs.Model.AbandonedChecks
import Parcels.Proofs.Model.Calls
import Parcels.Proofs.Model.ClassLists
import Parcels.Proofs.Model.ClassSorting
import Parcels.Proofs.Model.ClassVariables
import Parcels.Proofs.Model.Classes
import Parcels.Proofs.Model.Connecting
import Parcels.Proofs.Model.Descendants
import Parcels.Proofs.Model.FoundLinks
import Parcels.Proofs.Model.FullSymbols
import Parcels.Proofs.Model.HostFiles
import Parcels.Proofs.Model.InheritanceCycles
import Parcels.Proofs.Model.InheritanceOrder
import Parcels.Proofs.Model.Lasting
import Parcels.Proofs.Model.LinkViews
import Parcels.Proofs.Model.Links
import Parcels.Proofs.Model.OrderedClasses
import Parcels.Proofs.Model.Parcels
import Parcels.Proofs.Model.PrereqChecks
import Parcels.Proofs.Model.PrereqClosure
import Parcels.Proofs.Model.Registry
import Parcels.Proofs.Model.Renaming
import Parcels.Proofs.Model.RepeatedSorts
import Parcels.Proofs.Model.RequiredParcels
import Parcels.Proofs.Model.Runs
import Parcels.Proofs.Model.Scopes
import Parcels.Proofs.Model.SetUp
import Parcels.Proofs.Model.ShortSymbols
import Parcels.Proofs.Model.SortOutcomes
import Parcels.Proofs.Model.SortedModels
import Parcels.Proofs.Model.SymbolSearch
import Parcels.Proofs.Name
import Parcels.Proofs.Order
import Parcels.Proofs.Parcel
import Parcels.Proofs.Parcel.SpecFaults
import Parcels.Proofs.Parcel.Specs
import Parcels.Proofs.Path
import Parcels.Proofs.Path.Order
import Parcels.Proofs.Sorting
import Parcels.Proofs.Text.Bytes
import Parcels.Proofs.Version.Order
import Parcels.Proofs.Version.Spelling
import Parcels.Report
import Parcels.Sorting
import Parcels.Text.Blank
import Parcels.Version
