import HornReasoner.Ontology.Error

/-! Reading class and property expressions out of triples.

IRIs are names; any other term is described by the triples about it. The reader
remembers the terms it is reading, so a description that leads back to itself is
reported; when it is done with a term it forgets it. -/
namespace HornReasoner.Ontology

open Vocabulary

/-- Actions on the list of the terms being read. They keep it also where they fail. -/
abbrev Reading := ExceptT OntologyError (StateM (List Term))

/-- Reads a term's description with the term on the list. -/
def visiting (t : Term) (describe : Reading α) : Reading α := fun terms =>
  if t ∈ terms then (.error (.cyclic t), terms)
  else
    let (result, terms) := describe (t :: terms)
    (result, terms.erase t)

variable {σ : Type} [TripleSource σ]

/-- The object of `node predicate`, if there is one. -/
def single (source : σ) (node : Term) (predicate : String) : Reading (Option Term) :=
  match TripleSource.objects source node (.iri predicate) with
  | [] => pure none
  | [o] => pure (some o)
  | os => throw (.manyValues node os.length predicate)

def items (source : σ) (head : Term) : Reading (List Term) :=
  match Collection.items source head with
  | .ok found => pure found
  | .error fault => throw (.collection fault)

/-- A named property; a blank node may be the inverse of another one. Each blank node
on the way is another one, so a `fuel` beyond the number of triples suffices. -/
def propertyFrom (source : σ) : Nat → Term → Reading PropertyExpr
  | 0, t => throw (.cyclic t)
  | fuel + 1, t =>
    if !t.isBlank then pure (.named t)
    else visiting t do
      match ← single source t Owl.inverseOf with
      | some inner => return .inverseOf (← propertyFrom source fuel inner)
      | none => return .named t

/-- The predicates of which a restriction has one, in the order in which they are looked
for. -/
def fillerPredicates : List String :=
  [Owl.someValuesFrom, Owl.allValuesFrom, Owl.hasValue, Owl.minCardinality, Owl.maxCardinality,
   Owl.cardinality]

def restrictionOf (read : Term → Reading ClassExpr) (property : PropertyExpr)
    (predicate : String) (filler : Term) : Reading ClassExpr := do
  if predicate = Owl.someValuesFrom then return .someValuesFrom property (← read filler)
  else if predicate = Owl.allValuesFrom then return .allValuesFrom property (← read filler)
  else if predicate = Owl.hasValue then return .hasValue property filler
  else if predicate = Owl.minCardinality then return .cardinality .min property filler
  else if predicate = Owl.maxCardinality then return .cardinality .max property filler
  else return .cardinality .exact property filler

/-- A restriction of `property`. -/
def restriction (source : σ) (read : Term → Reading ClassExpr) (node : Term)
    (property : PropertyExpr) : Reading ClassExpr :=
  let fillers := fillerPredicates.flatMap fun predicate =>
    (TripleSource.objects source node (.iri predicate)).map (predicate, ·)
  match fillers with
  | [] => throw (.emptyRestriction node)
  | [(predicate, filler)] => restrictionOf read property predicate filler
  | _ => throw (.manyFillers node (fillers.map Prod.fst))

/-- An anonymous class: a combination of classes, a restriction, or no more than its
node. The first kind of description found counts. -/
def anonymous (source : σ) (readProperty : Term → Reading PropertyExpr)
    (read : Term → Reading ClassExpr) (node : Term) : Reading ClassExpr := do
  if let some list ← single source node Owl.intersectionOf then
    return .intersectionOf (← (← items source list).mapM read)
  if let some list ← single source node Owl.unionOf then
    return .unionOf (← (← items source list).mapM read)
  if let some inner ← single source node Owl.complementOf then
    return .complementOf (← read inner)
  if let some list ← single source node Owl.oneOf then
    return .oneOf (← items source list)
  match ← single source node Owl.onProperty with
  | some property => restriction source read node (← readProperty property)
  | none =>
    if TripleSource.contains source ⟨node, .iri Rdf.type, .iri Owl.restriction⟩ then
      throw (.missingProperty node)
    else return .named node

/-- Each anonymous term on the way is another one, so a `fuel` beyond the number of
triples suffices. -/
def classFrom (source : σ) (readProperty : Term → Reading PropertyExpr) :
    Nat → Term → Reading ClassExpr
  | 0, t => throw (.cyclic t)
  | fuel + 1, t =>
    match t with
    | .iri s =>
      if s = Owl.thing then pure .thing
      else if s = Owl.nothing then pure .nothing
      else pure (.named (.iri s))
    | t => visiting t (anonymous source readProperty (classFrom source readProperty fuel) t)

/-- A bound on the anonymous terms that one description can lead through. -/
def depth (source : σ) : Nat := (TripleSource.triples source).length + 2

/-- The property expression that a term stands for. -/
def readProperty (source : σ) (t : Term) : Reading PropertyExpr :=
  propertyFrom source (depth source) t

/-- The class expression that a term stands for. -/
def readClass (source : σ) (t : Term) : Reading ClassExpr :=
  classFrom source (readProperty source) (depth source) t

/-- The class expressions of a collection's items. -/
def readMembers (source : σ) (list : Term) : Reading (List ClassExpr) := do
  (← items source list).mapM (readClass source)

end HornReasoner.Ontology
