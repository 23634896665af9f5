import HornReasoner.Rdf.Graph
import HornReasoner.Rdf.Vocabulary

/-! Collections: chains of cells with one `rdf:first` and one `rdf:rest` each, ended
by `rdf:nil`. -/
namespace HornReasoner.Collection

inductive Fault where
  /-- The cell lacks a `rdf:first` or a `rdf:rest`, or has several. -/
  | malformed (cell : Term)
  /-- The chain comes back to the cell. -/
  | cyclic (cell : Term)
deriving DecidableEq, Repr

def Fault.message : Fault → String
  | malformed cell => "Malformed RDF collection at " ++ cell.render
  | cyclic cell => "Cyclic RDF collection at " ++ cell.render

variable {σ : Type} [TripleSource σ]

/-- Follows the chain from `node`. Each step visits a new subject of the source, so a
`fuel` beyond its number of triples is never used up. -/
def follow (source : σ) : Nat → List Term → Term → Except Fault (List Term)
  | 0, _, node => .error (.cyclic node)
  | fuel + 1, visited, node =>
    if node = .iri Vocabulary.Rdf.nil then .ok []
    else if node ∈ visited then .error (.cyclic node)
    else
      match TripleSource.value source node (.iri Vocabulary.Rdf.first) with
      | none => .error (.malformed node)
      | some item =>
        match TripleSource.value source node (.iri Vocabulary.Rdf.rest) with
        | none => .error (.malformed node)
        | some next => (follow source fuel (node :: visited) next).map (item :: ·)

/-- The items of the collection that starts at `head`. -/
def items (source : σ) (head : Term) : Except Fault (List Term) :=
  follow source ((TripleSource.triples source).length + 2) [] head

end HornReasoner.Collection
