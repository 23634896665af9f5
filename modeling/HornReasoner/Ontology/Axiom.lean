import HornReasoner.Formula.Normal
import HornReasoner.Ontology.Reader
import HornReasoner.Ontology.Membership

/-! Axioms and their clauses.

The axioms of an ontology are the triples of certain shapes; each yields clauses, or
a diagnostic if it cannot be read or has no Horn form, and none stops the others. -/
namespace HornReasoner.Ontology

open Vocabulary

inductive Axiom where
  | subClassOf (sub sup : Term)
  | equivalentClass (left right : Term)
  /-- A named class is the intersection of a collection's items. -/
  | intersection (cls members : Term)
  /-- A named class is the union of a collection's items. -/
  | union (cls members : Term)
  | inverse (p q : Term)
  | transitive (p : Term)
  | symmetric (p : Term)
  | domain (p cls : Term)
  | range (p cls : Term)
  | subPropertyOf (sub sup : Term)
  | equivalentProperty (left right : Term)
  /-- A named class described by a construct that has no Horn form. -/
  | inexpressible (predicate : String) (cls : Term)
deriving DecidableEq, Repr

namespace Axiom

section Source
variable {σ : Type} [TripleSource σ]

def withPredicate (source : σ) (predicate : String) : List Triple :=
  TripleSource.matching source { predicate := some (.iri predicate) }

def typed (source : σ) (cls : String) : List Term :=
  TripleSource.subjects source (.iri Rdf.type) (.iri cls)

/-- Subjects and objects of a predicate, as long as the subject is not blank. -/
def named (source : σ) (predicate : String) : List (Term × Term) :=
  ((withPredicate source predicate).filter (!·.subject.isBlank)).map fun t => (t.subject, t.object)

/-- Subjects and objects of a predicate. -/
def pairsOf (source : σ) (predicate : String) : List (Term × Term) :=
  (withPredicate source predicate).map fun t => (t.subject, t.object)

/-- All axioms of a source, kind by kind. -/
def all (source : σ) : List Axiom :=
  (pairsOf source Rdfs.subClassOf).map (fun e => subClassOf e.1 e.2) ++
  (pairsOf source Owl.equivalentClass).map (fun e => equivalentClass e.1 e.2) ++
  (named source Owl.intersectionOf).map (fun e => intersection e.1 e.2) ++
  (named source Owl.unionOf).map (fun e => union e.1 e.2) ++
  ((named source Owl.inverseOf).filter (!·.2.isBlank)).map (fun e => inverse e.1 e.2) ++
  (typed source Owl.transitiveProperty).map transitive ++
  (typed source Owl.symmetricProperty).map symmetric ++
  (pairsOf source Rdfs.domain).map (fun e => domain e.1 e.2) ++
  (pairsOf source Rdfs.range).map (fun e => range e.1 e.2) ++
  (pairsOf source Rdfs.subPropertyOf).map (fun e => subPropertyOf e.1 e.2) ++
  (pairsOf source Owl.equivalentProperty).map (fun e => equivalentProperty e.1 e.2) ++
  (named source Owl.complementOf).map (fun e => inexpressible Owl.complementOf e.1) ++
  (named source Owl.oneOf).map (fun e => inexpressible Owl.oneOf e.1)

end Source

/-! ### Labels -/

def labelOf (name : String) (terms : List Term) : String :=
  name ++ "(" ++ ", ".intercalate (terms.map Term.describe) ++ ")"

/-- The name of an axiom in labels and diagnostics. -/
def label : Axiom → String
  | subClassOf sub sup => labelOf "subClassOf" [sub, sup]
  | equivalentClass left right => labelOf "equivalentClass" [left, right]
  | intersection cls _ => labelOf "intersectionOf" [cls]
  | union cls _ => labelOf "unionOf" [cls]
  | inverse p q => labelOf "inverseOf" [p, q]
  | transitive p => labelOf "TransitiveProperty" [p]
  | symmetric p => labelOf "SymmetricProperty" [p]
  | domain p cls => labelOf "domain" [p, cls]
  | range p cls => labelOf "range" [p, cls]
  | subPropertyOf sub sup => labelOf "subPropertyOf" [sub, sup]
  | equivalentProperty left right => labelOf "equivalentProperty" [left, right]
  | inexpressible predicate cls => labelOf (compact predicate) [cls]

end Axiom

/-! ### Clauses -/

/-- What the work on one axiom leaves to the next: the terms being read, which are
none, and the context. -/
structure Progress where
  reading : List Term := []
  context : Context := {}

abbrev Compiling := ExceptT OntologyError (StateM Progress)

def reading (act : Reading α) : Compiling α := fun p =>
  let (result, terms) := act p.reading
  (result, { p with reading := terms })

def expressing (act : Expressing α) : Compiling α := fun p =>
  let (result, context) := act p.context
  (result, { p with context })

def x : Term := .var ⟨"x"⟩

def y : Term := .var ⟨"y"⟩

def z : Term := .var ⟨"z"⟩

/-- `sup(x) :- sub(x)`. -/
def inclusion (label : String) (sub sup : ClassExpr) : Compiling Clause := do
  let body ← expressing (inBody sub x)
  let head ← expressing (inHead sup x)
  return ⟨label, head, body⟩

/-- `sup(x, y) :- sub(x, y)`. -/
def propertyInclusion (label : String) (sub sup : PropertyExpr) : Clause :=
  { label, head := .atom (sup.atom x y), body := .atom (sub.atom x y) }

namespace Axiom

/-- The clauses of an axiom over a source. -/
def clauses {σ : Type} [TripleSource σ] (source : σ) (a : Axiom) : Compiling (List Clause) := do
  match a with
  | subClassOf sub sup =>
    let sub ← reading (readClass source sub)
    let sup ← reading (readClass source sup)
    return [← inclusion a.label sub sup]
  | equivalentClass left right =>
    let leftClass ← reading (readClass source left)
    let rightClass ← reading (readClass source right)
    let forward ← inclusion a.label leftClass rightClass
    let backward ← inclusion (label (equivalentClass right left)) rightClass leftClass
    return [forward, backward]
  | intersection cls members =>
    let whole := ClassExpr.intersectionOf (← reading (readMembers source members))
    let forward ← inclusion a.label whole (.named cls)
    let backward ← inclusion (a.label ++ ":members") (.named cls) whole
    return [forward, backward]
  | union cls members =>
    let whole := ClassExpr.unionOf (← reading (readMembers source members))
    return [← inclusion a.label whole (.named cls)]
  | inverse p q =>
    let backward := Formula.atom ⟨y, p, x⟩
    let forward := Formula.atom ⟨x, q, y⟩
    return [⟨a.label, forward, backward⟩, ⟨a.label, backward, forward⟩]
  | transitive p =>
    return [⟨a.label, .atom ⟨x, p, z⟩, .and [.atom ⟨x, p, y⟩, .atom ⟨y, p, z⟩]⟩]
  | symmetric p => return [⟨a.label, .atom ⟨y, p, x⟩, .atom ⟨x, p, y⟩⟩]
  | domain p cls =>
    let property ← reading (readProperty source p)
    let cls ← reading (readClass source cls)
    let head ← expressing (inHead cls x)
    return [⟨a.label, head, .atom (property.atom x y)⟩]
  | range p cls =>
    let property ← reading (readProperty source p)
    let cls ← reading (readClass source cls)
    let head ← expressing (inHead cls y)
    return [⟨a.label, head, .atom (property.atom x y)⟩]
  | subPropertyOf sub sup =>
    let sub ← reading (readProperty source sub)
    let sup ← reading (readProperty source sup)
    return [propertyInclusion a.label sub sup]
  | equivalentProperty left right =>
    let leftProperty ← reading (readProperty source left)
    let rightProperty ← reading (readProperty source right)
    return [propertyInclusion a.label leftProperty rightProperty,
      propertyInclusion (label (equivalentProperty right left)) rightProperty leftProperty]
  | inexpressible _ _ => return []

end Axiom

/-! ### Ontologies -/

/-- The clauses so far, and what is left to the next axiom. -/
structure Walk where
  progress : Progress := {}
  clauses : List Clause := []

namespace Walk

def diagnose (w : Walk) (source message : String) : Walk :=
  { w with progress := { w.progress with context := w.progress.context.diagnose source message } }

/-- Keeps a clause that concludes something from something. -/
def push (w : Walk) (c : Clause) : Walk :=
  if c.head.isEmptyConj then w
  else if c.body.isEmptyConj then w.diagnose c.label "owl:Thing cannot be a Horn body"
  else { w with clauses := w.clauses ++ [c] }

/-- Compiles an axiom. One that fails yields its diagnostic and nothing else. -/
def add {σ : Type} [TripleSource σ] (source : σ) (w : Walk) (a : Axiom) : Walk :=
  match a with
  | .inexpressible predicate _ =>
    w.diagnose a.label (compact predicate ++ " has no Horn translation")
  | _ =>
    let (result, progress) := a.clauses source w.progress
    let w := { w with progress }
    match result with
    | .ok clauses => clauses.foldl push w
    | .error error => w.diagnose a.label error.message

end Walk

/-- An ontology as rules. -/
structure Compilation where
  /-- The clauses before normalisation. -/
  clauses : List Clause
  rules : List HornRule
  /-- What was skipped: axioms first, then parts of clauses. -/
  diagnostics : List Diagnostic

/-- Compiles every axiom of a source. -/
def compile {σ : Type} [TripleSource σ] (source : σ) : Compilation :=
  let walk := (Axiom.all source).foldl (Walk.add source) {}
  let normal := Clause.normalizeAll walk.clauses
  { clauses := walk.clauses
    rules := normal.rules
    diagnostics := walk.progress.context.diagnostics ++ normal.dropped }

end HornReasoner.Ontology
