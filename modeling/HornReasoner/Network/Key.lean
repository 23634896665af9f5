import HornReasoner.Rdf.Term

/-! Keys of patterns.

The key of a pattern keeps its constants and numbers its variables by their first
occurrence, so patterns that differ in the names of variables alone share a key, and
with it a test. -/
namespace HornReasoner

inductive KeyTerm where
  | constant (term : Term)
  | slot (index : Nat)
deriving DecidableEq, Repr

namespace KeyTerm

/-- The key of a term behind the variables `seen`, and the variables seen then. -/
def of (seen : List Variable) : Term → KeyTerm × List Variable
  | .var v =>
    match seen.idxOf? v with
    | some i => (slot i, seen)
    | none => (slot seen.length, seen ++ [v])
  | t => (constant t, seen)

/-- Tests a term against the values of the slots so far; a new slot takes the term. -/
def test? (slots : List Term) : KeyTerm → Term → Option (List Term)
  | constant expected, t => if expected = t then some slots else none
  | slot i, t =>
    match slots[i]? with
    | some bound => if bound = t then some slots else none
    | none => some (slots ++ [t])

end KeyTerm

structure AlphaKey where
  subject : KeyTerm
  predicate : KeyTerm
  object : KeyTerm
deriving DecidableEq, Repr

namespace AlphaKey

def of (pattern : Triple) : AlphaKey :=
  let (subject, seen) := KeyTerm.of [] pattern.subject
  let (predicate, seen) := KeyTerm.of seen pattern.predicate
  let (object, _) := KeyTerm.of seen pattern.object
  ⟨subject, predicate, object⟩

/-- Constants agree and a repeated slot meets one value only. -/
def holds (key : AlphaKey) (fact : Triple) : Bool :=
  let slots := do
    let slots ← key.subject.test? [] fact.subject
    let slots ← key.predicate.test? slots fact.predicate
    key.object.test? slots fact.object
  slots.isSome

/-- The predicate, if it is a constant. -/
def predicate? (key : AlphaKey) : Option Term :=
  match key.predicate with
  | .constant t => some t
  | .slot _ => none

end AlphaKey

end HornReasoner
