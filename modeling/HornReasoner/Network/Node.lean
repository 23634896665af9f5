import HornReasoner.Network.Key
import HornReasoner.Order.Buckets
import HornReasoner.Rdf.Binding

/-! Nodes of the network and what passes between them.

An alpha node tests one pattern. A beta node joins what its left input found with the
matches of one more pattern, or tests it by a built-in predicate; it files both sides
under the values of the variables they share. -/
namespace HornReasoner

structure AlphaId where
  index : Nat
deriving DecidableEq, Repr

structure BetaId where
  index : Nat
deriving DecidableEq, Repr

structure ProductionId where
  index : Nat
deriving DecidableEq, Repr

def AlphaId.render (id : AlphaId) : String := "a" ++ toString id.index

def BetaId.render (id : BetaId) : String := "b" ++ toString id.index

def ProductionId.render (id : ProductionId) : String := "p" ++ toString id.index

/-- The memory of a beta node that an alpha node feeds. -/
inductive Side where
  | left
  | right
deriving DecidableEq, Repr

/-- A fact that matches a pattern, with the binding of the match. -/
structure Match where
  fact : Triple
  binding : Binding
deriving DecidableEq

/-- Facts that match the patterns of a body so far, in their order, and what they
bind. -/
structure Instantiation where
  support : List Triple := []
  binding : Binding := ∅
deriving DecidableEq

namespace Instantiation

def ofMatch (m : Match) : Instantiation := ⟨[m.fact], m.binding⟩

/-- The instantiation with one more fact, if the bindings agree. -/
def join (i : Instantiation) (m : Match) : Option Instantiation :=
  (i.binding.merge m.binding).map fun binding => ⟨i.support ++ [m.fact], binding⟩

end Instantiation

/-- An edge from an alpha node. The pattern is that of the rule the edge was made for,
so bindings have that rule's variables. -/
structure AlphaEdge where
  beta : BetaId
  side : Side
  pattern : Triple
deriving DecidableEq, Repr

structure AlphaNode where
  key : AlphaKey
  /-- The pattern of the first rule that needed the node. -/
  pattern : Triple
  successors : List AlphaEdge := []
  activations : Nat := 0
deriving DecidableEq, Repr

inductive LeftInput where
  | alpha (id : AlphaId)
  | beta (id : BetaId)
deriving DecidableEq, Repr

inductive RightInput where
  /-- The left input is the only one. -/
  | passThrough
  | alpha (id : AlphaId)
  /-- A test of the left instantiation. -/
  | builtin (predicate : String) (pattern : Triple)
deriving DecidableEq, Repr

/-- Items under the values of the join variables. -/
abbrev Memory (α : Type) := Buckets (List Term) α

structure BetaNode where
  left : LeftInput
  right : RightInput
  /-- The variables that both inputs bind, in order. -/
  joinVars : List Variable := []
  /-- The variables that every instantiation leaving the node binds, in order. -/
  outputVars : List Variable := []
  leftMemory : Memory Instantiation := []
  rightMemory : Memory Match := []
  successors : List BetaId := []
  productions : List ProductionId := []
  activations : Nat := 0
deriving DecidableEq

namespace BetaNode

def isPassThrough (n : BetaNode) : Bool := n.right = .passThrough

/-- Some rule ends here. -/
def isTerminal (n : BetaNode) : Bool := !n.productions.isEmpty

/-- Stores a left instantiation and joins it with the right matches under its key. -/
def insertLeft (n : BetaNode) (i : Instantiation) : BetaNode × List Instantiation :=
  match i.binding.keyFor n.joinVars with
  | none => (n, [])
  | some key =>
    ({ n with leftMemory := n.leftMemory.add key i }, (n.rightMemory.find key).filterMap i.join)

/-- Stores a right match and joins it with the left instantiations under its key. -/
def insertRight (n : BetaNode) (m : Match) : BetaNode × List Instantiation :=
  match m.binding.keyFor n.joinVars with
  | none => (n, [])
  | some key =>
    ({ n with rightMemory := n.rightMemory.add key m },
      (n.leftMemory.find key).filterMap fun i => i.join m)

def clear (n : BetaNode) : BetaNode :=
  { n with leftMemory := [], rightMemory := [], activations := 0 }

end BetaNode

/-- A step of a rule's body in the order of evaluation. -/
inductive PlanStep where
  | pattern (triple : Triple)
  | builtin (triple : Triple)
deriving DecidableEq, Repr

namespace PlanStep

def triple : PlanStep → Triple
  | pattern t => t
  | builtin t => t

/-- The pattern of a step that matches facts. -/
def pattern? : PlanStep → Option Triple
  | pattern t => some t
  | builtin _ => none

end PlanStep

end HornReasoner
