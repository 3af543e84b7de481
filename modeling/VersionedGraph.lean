import VersionedGraph.Graph.RowSearch
import VersionedGraph.Main
import VersionedGraph.Proofs.Access
import VersionedGraph.Proofs.Action
import VersionedGraph.Proofs.Alike
import VersionedGraph.Proofs.Breadth
import VersionedGraph.Proofs.Chain
import VersionedGraph.Proofs.Closure
import VersionedGraph.Proofs.Criteria
import VersionedGraph.Proofs.Crossing
import VersionedGraph.Proofs.FilteredQuery
import VersionedGraph.Proofs.Finding
import VersionedGraph.Proofs.Granting
import VersionedGraph.Proofs.Latest
import VersionedGraph.Proofs.Line
import VersionedGraph.Proofs.Listing
import VersionedGraph.Proofs.Neighbors
import VersionedGraph.Proofs.Noninterference
import VersionedGraph.Proofs.Order
import VersionedGraph.Proofs.Outcome
import VersionedGraph.Proofs.Record
import VersionedGraph.Proofs.RowSearch
import VersionedGraph.Proofs.Shape
import VersionedGraph.Proofs.ShortestPath
import VersionedGraph.Proofs.Traversal
import VersionedGraph.Proofs.Versioned
import VersionedGraph.Proofs.Visibility
import VersionedGraph.Proofs.Walk
import VersionedGraph.Proofs.Write
import VersionedGraph.Clause.Column
import VersionedGraph.Proofs.Enforcement
import VersionedGraph.Proofs.Quoting
import VersionedGraph.Proofs.Doubles
import VersionedGraph.Proofs.NumberText
import VersionedGraph.Proofs.Numerals
import VersionedGraph.Proofs.Written
import VersionedGraph.Proofs.Descent
import VersionedGraph.Proofs.Canonical
import VersionedGraph.Proofs.Interning
import VersionedGraph.Proofs.Agreement
import VersionedGraph.Proofs.History
import VersionedGraph.Proofs.Reversal
import VersionedGraph.Proofs.Spoiling
import VersionedGraph.Proofs.Stopping
import VersionedGraph.Proofs.Widening
import VersionedGraph.Proofs.Failure
import VersionedGraph.Proofs.Attachment
import VersionedGraph.Proofs.Spelling
import VersionedGraph.Proofs.Indexing
import VersionedGraph.Proofs.Resolution
import VersionedGraph.Proofs.Recording
import VersionedGraph.Proofs.Detours
import VersionedGraph.Proofs.Deltas
import VersionedGraph.Proofs.AnyVersion
import VersionedGraph.Proofs.Refusal
import VersionedGraph.Proofs.ExactSearch
import VersionedGraph.Proofs.Accepted
import VersionedGraph.Proofs.Wildcards
import VersionedGraph.Proofs.Parts
import VersionedGraph.Proofs.Opposites
import VersionedGraph.Proofs.Substitutes
import VersionedGraph.Proofs.CanonicalPath
import VersionedGraph.Proofs.Comparisons
import VersionedGraph.Proofs.Overlong
import VersionedGraph.Proofs.Creator
import VersionedGraph.Proofs.Checked
import VersionedGraph.Proofs.Answers
import VersionedGraph.Proofs.ReadBack
import VersionedGraph.Proofs.Recall
import VersionedGraph.Proofs.Worklist
