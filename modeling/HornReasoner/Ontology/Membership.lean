import HornReasoner.Formula.Basic
import HornReasoner.Ontology.Error
import HornReasoner.Rule.Diagnostic

/-! Class expressions as formulas.

`inHead` says that a term belongs to a class that is concluded, `inBody` that it
belongs to one that is tested. Some constructs have a formula on one side only,
some on none. -/
namespace HornReasoner.Ontology

/-- Fresh variables are numbered, diagnostics collected. -/
structure Context where
  nextVariable : Nat := 0
  diagnostics : List Diagnostic := []
deriving DecidableEq, Repr

namespace Context

/-- A variable not used before in this context. -/
def fresh (c : Context) : Term × Context :=
  (.var ⟨"v" ++ toString (c.nextVariable + 1)⟩, { c with nextVariable := c.nextVariable + 1 })

def diagnose (c : Context) (source message : String) : Context :=
  { c with diagnostics := c.diagnostics ++ [⟨source, message⟩] }

end Context

/-- Variables that a failed attempt took stay taken. -/
abbrev Expressing := ExceptT OntologyError (StateM Context)

def freshVariable : Expressing Term := fun c => let (v, c) := c.fresh; (.ok v, c)

mutual

/-- "`x` is a member", concluded. -/
def inHead : ClassExpr → Term → Expressing Formula
  | .named c, x => pure (.classAtom x c)
  | .thing, _ => pure (.conj [])
  | .intersectionOf parts, x => do return .and (← allInHead parts x)
  | .unionOf parts, x => do return .or (← allInHead parts x)
  | .allValuesFrom property filler, x => do
    let y ← freshVariable
    return .implies (.atom (property.atom x y)) (← inHead filler y)
  | .hasValue property value, x => pure (.atom (property.atom x value))
  | .someValuesFrom property filler, _ =>
    throw (.unsupportedInHead (.someValuesFrom property filler))
  | .nothing, _ => throw (.unsupported .nothing)
  | .complementOf inner, _ => throw (.unsupported (.complementOf inner))
  | .oneOf items, _ => throw (.unsupported (.oneOf items))
  | .cardinality kind property value, _ => throw (.unsupported (.cardinality kind property value))

def allInHead : List ClassExpr → Term → Expressing (List Formula)
  | [], _ => pure []
  | part :: rest, x => do return (← inHead part x) :: (← allInHead rest x)

end

mutual

/-- "`x` is a member", tested. -/
def inBody : ClassExpr → Term → Expressing Formula
  | .named c, x => pure (.classAtom x c)
  | .thing, _ => pure (.conj [])
  | .intersectionOf parts, x => do return .and (← allInBody parts x)
  | .unionOf parts, x => do return .or (← allInBody parts x)
  | .someValuesFrom property filler, x => do
    let y ← freshVariable
    return .and [.atom (property.atom x y), ← inBody filler y]
  | .hasValue property value, x => pure (.atom (property.atom x value))
  | .allValuesFrom property filler, _ =>
    throw (.unsupportedInBody (.allValuesFrom property filler))
  | .nothing, _ => throw (.unsupported .nothing)
  | .complementOf inner, _ => throw (.unsupported (.complementOf inner))
  | .oneOf items, _ => throw (.unsupported (.oneOf items))
  | .cardinality kind property value, _ => throw (.unsupported (.cardinality kind property value))

def allInBody : List ClassExpr → Term → Expressing (List Formula)
  | [], _ => pure []
  | part :: rest, x => do return (← inBody part x) :: (← allInBody rest x)

end

end HornReasoner.Ontology
