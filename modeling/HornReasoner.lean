import HornReasoner.Engine.Basic
import HornReasoner.Engine.Options
import HornReasoner.Engine.Shared
import HornReasoner.Formula.Basic
import HornReasoner.Formula.Normal
import HornReasoner.Json.Reader
import HornReasoner.Json.Record
import HornReasoner.Json.Value
import HornReasoner.N3.Document
import HornReasoner.N3.Escape
import HornReasoner.N3.Lexer
import HornReasoner.N3.Token
import HornReasoner.Network.Basic
import HornReasoner.Network.Build
import HornReasoner.Network.Diagram
import HornReasoner.Network.Key
import HornReasoner.Network.Node
import HornReasoner.Network.Propagation
import HornReasoner.Network.Provenance
import HornReasoner.Network.Skolem
import HornReasoner.Number.Binary64
import HornReasoner.Number.Decimal
import HornReasoner.Number.Shortest
import HornReasoner.Ontology.Axiom
import HornReasoner.Ontology.ClassExpr
import HornReasoner.Ontology.Error
import HornReasoner.Ontology.Membership
import HornReasoner.Ontology.Reader
import HornReasoner.Ontology.Supplement
import HornReasoner.Order.Buckets
import HornReasoner.Order.Sorted
import HornReasoner.Order.SortedMap
import HornReasoner.Rdf.Binding
import HornReasoner.Rdf.Collection
import HornReasoner.Rdf.Graph
import HornReasoner.Rdf.Json
import HornReasoner.Rdf.Numeric
import HornReasoner.Rdf.Term
import HornReasoner.Rdf.Vocabulary
import HornReasoner.Regex.Pattern
import HornReasoner.Regex.Reader
import HornReasoner.Rule.Builtin
import HornReasoner.Rule.Diagnostic
import HornReasoner.Rule.Horn
import HornReasoner.Rule.Ruleset
import HornReasoner.Text.Case
import HornReasoner.Text.Category
import HornReasoner.Text.Digits
import HornReasoner.Text.Lowercase
import HornReasoner.Text.Script
import HornReasoner.Text.WhiteSpace
import HornReasoner.Proofs.Order.Lookup
import HornReasoner.Proofs.Rdf.Binding
import HornReasoner.Proofs.Rdf.Renaming
import HornReasoner.Proofs.Rule.Matching
import HornReasoner.Proofs.Rule.Positions
import HornReasoner.Proofs.Rule.Renaming
import HornReasoner.Proofs.Rule.Atoms
import HornReasoner.Proofs.Network.Instances
import HornReasoner.Proofs.Network.Key
import HornReasoner.Proofs.Network.Join
import HornReasoner.Proofs.Order.Permutation
import HornReasoner.Proofs.Network.Wiring
import HornReasoner.Proofs.Network.Account
import HornReasoner.Proofs.Network.Arrival
import HornReasoner.Proofs.Network.Step
import HornReasoner.Proofs.Network.Run
import HornReasoner.Proofs.Network.Plan
import HornReasoner.Proofs.Network.Placement
import HornReasoner.Proofs.Network.Chase
import HornReasoner.Proofs.Network.Rest
import HornReasoner.Proofs.Network.Growth
import HornReasoner.Proofs.Network.Compile
import HornReasoner.Proofs.Network.Refusal
import HornReasoner.Proofs.Network.Batch
import HornReasoner.Proofs.Network.History
import HornReasoner.Proofs.Network.Memories
import HornReasoner.Proofs.Network.Fixpoint
import HornReasoner.Proofs.Network.Closure
import HornReasoner.Proofs.Network.Origin
import HornReasoner.Proofs.Network.Course
import HornReasoner.Proofs.Network.Invariant
import HornReasoner.Proofs.Network.Firing
import HornReasoner.Proofs.Network.Justification
import HornReasoner.Proofs.Network.Minting
import HornReasoner.Proofs.Network.Confluence
import HornReasoner.Proofs.Formula.Meaning
import HornReasoner.Proofs.Formula.Horn
import HornReasoner.Proofs.Ontology.Interpretation
import HornReasoner.Proofs.Network.Interpretation
import HornReasoner.Proofs.Network.Bindings
import HornReasoner.Proofs.Formula.Equivalence
import HornReasoner.Proofs.Formula.Quantifiers
import HornReasoner.Proofs.Ontology.Membership
import HornReasoner.Proofs.Ontology.Inclusion
import HornReasoner.Proofs.Network.Freshness
import HornReasoner.Proofs.Network.Statistics
import HornReasoner.Proofs.Network.Capacity
import HornReasoner.Proofs.Network.Termination
import HornReasoner.Proofs.Network.Cancellation
import HornReasoner.Proofs.Network.Rebuild
import HornReasoner.Proofs.Network.Repetition
import HornReasoner.Proofs.Network.Stores
import HornReasoner.Proofs.Network.Trie
import HornReasoner.Proofs.Network.Sharing
import HornReasoner.Proofs.Network.Divergence
import HornReasoner.Proofs.Ontology.Reading
import HornReasoner.Proofs.Ontology.Compilation
import HornReasoner.Proofs.Ontology.Supplement
import HornReasoner.Proofs.Rdf.Merging
import HornReasoner.Proofs.Rdf.Query
import HornReasoner.Proofs.Rdf.Collection
import HornReasoner.Proofs.Rdf.Edits
import HornReasoner.Proofs.Rdf.Repeated
import HornReasoner.Proofs.Ontology.Description
import HornReasoner.Proofs.Formula.Renaming
import HornReasoner.Proofs.Formula.Alternatives
import HornReasoner.Proofs.Formula.Atoms
import HornReasoner.Proofs.Ontology.Renumbering
import HornReasoner.Proofs.Ontology.Axioms
import HornReasoner.Proofs.Ontology.Halves
import HornReasoner.Proofs.Ontology.Diagnostics
import HornReasoner.Proofs.Ontology.Locality
import HornReasoner.Proofs.Ontology.Properties
import HornReasoner.Proofs.Ontology.Subsumption
import HornReasoner.Proofs.Ontology.Encoding
import HornReasoner.Proofs.Ontology.Calls
import HornReasoner.Proofs.Ontology.Repeated
import HornReasoner.Proofs.Engine.Closure
import HornReasoner.Proofs.Engine.Loading
import HornReasoner.Proofs.Engine.Repetition
import HornReasoner.Proofs.Engine.Cancellation
import HornReasoner.Proofs.Json.RoundTrip
import HornReasoner.Proofs.Engine.Subsumption
import HornReasoner.Proofs.Json.Text
import HornReasoner.Proofs.N3.Abbreviations
import HornReasoner.Proofs.N3.Acceptance
import HornReasoner.Proofs.N3.Brackets
import HornReasoner.Proofs.N3.Escapes
import HornReasoner.Proofs.N3.Faults
import HornReasoner.Proofs.N3.Grammar
import HornReasoner.Proofs.N3.Labels
import HornReasoner.Proofs.N3.Lexing
import HornReasoner.Proofs.N3.Places
import HornReasoner.Proofs.N3.Printing
import HornReasoner.Proofs.N3.Reading
import HornReasoner.Proofs.N3.Statements
import HornReasoner.Proofs.N3.Trees
import HornReasoner.Proofs.N3.Uniqueness
