import HornReasoner.Order.Buckets
import HornReasoner.Order.Sorted
import HornReasoner.Rdf.Binding

/-! Triple graphs.

A graph is a list of distinct triples in insertion order together with the set of its
triples and an index for each position. The set and the indices are functions of the
list, which the type records, so two graphs with the same list are the same graph.

A `TripleSource` is anything that answers a query: a graph through its indices, a
plain list by filtering, repetitions kept. -/
namespace HornReasoner

/-- A triple with some positions left open. -/
structure Query where
  subject : Option Term := none
  predicate : Option Term := none
  object : Option Term := none

/-- The positions that are given hold the given terms. -/
def Query.holds (q : Query) (t : Triple) : Bool :=
  q.subject.all (t.subject == ·) && q.predicate.all (t.predicate == ·)
    && q.object.all (t.object == ·)

class TripleSource (σ : Type) where
  matching : σ → Query → List Triple
  contains : σ → Triple → Bool

namespace TripleSource

variable {σ : Type} [TripleSource σ]

def triples (source : σ) : List Triple := matching source {}

def objects (source : σ) (s p : Term) : List Term :=
  (matching source { subject := s, predicate := p }).map Triple.object

def subjects (source : σ) (p o : Term) : List Term :=
  (matching source { predicate := p, object := o }).map Triple.subject

/-- The object of `s p`, if the source lists exactly one. -/
def value (source : σ) (s p : Term) : Option Term :=
  match objects source s p with
  | [o] => some o
  | _ => none

end TripleSource

instance : TripleSource (List Triple) where
  matching ts q := ts.filter q.holds
  contains ts t := ts.contains t

/-! ### Positions of a term -/

/-- For each term the positions at which it stands, ascending. -/
abbrev TermIndex := Buckets Term Nat

/-- The index of `ts` by the term that `part` takes from each triple. -/
def TermIndex.ofTriples (part : Triple → Term) (ts : List Triple) : TermIndex :=
  ts.zipIdx.foldl (fun index e => index.add (part e.1) e.2) []

theorem TermIndex.ofTriples_concat (part : Triple → Term) (ts : List Triple) (t : Triple) :
    ofTriples part (ts ++ [t]) = (ofTriples part ts).add (part t) ts.length := by
  simp [ofTriples, List.zipIdx_append]

/-! ### Graphs -/

structure Graph where
  toList : List Triple
  /-- The set that membership is looked up in, the triple added last in front. -/
  members : List Triple
  bySubject : TermIndex
  byPredicate : TermIndex
  byObject : TermIndex
  nodup : toList.Nodup
  members_eq : members = toList.reverse
  bySubject_eq : bySubject = TermIndex.ofTriples Triple.subject toList
  byPredicate_eq : byPredicate = TermIndex.ofTriples Triple.predicate toList
  byObject_eq : byObject = TermIndex.ofTriples Triple.object toList

namespace Graph

protected def empty : Graph := ⟨[], [], [], [], [], .nil, rfl, rfl, rfl, rfl⟩

instance : EmptyCollection Graph := ⟨.empty⟩

instance : Inhabited Graph := ⟨.empty⟩

@[ext] theorem ext {g h : Graph} (heq : g.toList = h.toList) : g = h := by
  cases g; cases h
  cases heq
  simp_all

def size (g : Graph) : Nat := g.toList.length

def isEmpty (g : Graph) : Bool := g.toList.isEmpty

def contains (g : Graph) (t : Triple) : Bool := g.members.contains t

theorem contains_iff {g : Graph} {t : Triple} : g.contains t = true ↔ t ∈ g.toList := by
  rw [contains, List.contains_iff_mem, g.members_eq, List.mem_reverse]

/-- Adds a triple at the end; one that is there already changes nothing. -/
def insert (g : Graph) (t : Triple) : Graph :=
  if h : g.contains t = true then g else
    { toList := g.toList ++ [t]
      members := t :: g.members
      bySubject := g.bySubject.add t.subject g.toList.length
      byPredicate := g.byPredicate.add t.predicate g.toList.length
      byObject := g.byObject.add t.object g.toList.length
      nodup := by
        refine List.nodup_append.mpr ⟨g.nodup, by simp, fun a ha b hb => ?_⟩
        rw [List.mem_singleton.mp hb]
        exact fun hab => h (contains_iff.mpr (hab ▸ ha))
      members_eq := by rw [List.reverse_append, g.members_eq]; rfl
      bySubject_eq := by rw [TermIndex.ofTriples_concat, ← g.bySubject_eq]
      byPredicate_eq := by rw [TermIndex.ofTriples_concat, ← g.byPredicate_eq]
      byObject_eq := by rw [TermIndex.ofTriples_concat, ← g.byObject_eq] }

theorem toList_insert (g : Graph) (t : Triple) :
    (g.insert t).toList = if t ∈ g.toList then g.toList else g.toList ++ [t] := by
  unfold insert
  simp only [contains_iff]
  split <;> rfl

def insertAll (g : Graph) (ts : List Triple) : Graph := ts.foldl insert g

def ofList (ts : List Triple) : Graph := (∅ : Graph).insertAll ts

/-- The term stands in some position of some triple. -/
def mentions (g : Graph) (t : Term) : Bool :=
  g.bySubject.has t || g.byPredicate.has t || g.byObject.has t

/-- The triples in order, for comparing graphs. -/
def sorted (g : Graph) : List Triple := Sorted.sort g.toList

/-- Equality of the sets of triples, whatever the insertion orders. -/
def sameTriples (g h : Graph) : Bool :=
  g.members.length == h.members.length && g.members.all h.members.contains

/-- What two ascending lists have in common. Each number of the first one skips those of
the second one that are below it. -/
def intersect : List Nat → List Nat → List Nat
  | [], _ => []
  | i :: is, js =>
    match js.dropWhile (· < i) with
    | [] => []
    | j :: rest => if i = j then i :: intersect is rest else intersect is (j :: rest)

/-- The positions at which the given terms stand. -/
def positions (g : Graph) (q : Query) : List Nat :=
  let found := (q.subject.map (g.bySubject.find ·)).toList ++
    (q.predicate.map (g.byPredicate.find ·)).toList ++ (q.object.map (g.byObject.find ·)).toList
  match found with
  | [] => List.range g.size
  | is :: rest => rest.foldl intersect is

def matching (g : Graph) (q : Query) : List Triple :=
  (g.positions q).filterMap fun i => g.toList[i]?

/-- One triple a line. -/
def render (g : Graph) : String := "\n".intercalate (g.toList.map Triple.render)

end Graph

instance : TripleSource Graph where
  matching := Graph.matching
  contains := Graph.contains

end HornReasoner
