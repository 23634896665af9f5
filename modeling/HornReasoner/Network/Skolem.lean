import HornReasoner.Network.Node
import HornReasoner.Order.Sorted

/-! Blank nodes for existential variables.

A production that fires on the same set of facts again gets the blank nodes it got
before; anything else gets fresh ones, numbered on from the last. -/
namespace HornReasoner

structure SkolemTable where
  /-- What stands before the number in a label. -/
  stem : String
  counter : Nat := 0
  minted : List ((ProductionId × List Triple) × List (Variable × Term)) := []
deriving DecidableEq

namespace SkolemTable

def size (s : SkolemTable) : Nat := s.minted.length

def clear (s : SkolemTable) : SkolemTable := { s with counter := 0, minted := [] }

def blank (stem : String) (n : Nat) : Term := .blank (stem ++ "_" ++ toString n)

/-- The first number behind `counter` whose blank node is not in `used`. One of the
next `used.length + 1` numbers is free. -/
def nextFree (stem : String) (used : List Term) : Nat → Nat → Nat
  | 0, counter => counter + 1
  | tries + 1, counter =>
    if used.contains (blank stem (counter + 1)) then nextFree stem used tries (counter + 1)
    else counter + 1

/-- Fresh blank nodes for the variables in turn, and the last number given. -/
def mint (stem : String) (used : List Term) : Nat → List Variable → List (Variable × Term) × Nat
  | counter, [] => ([], counter)
  | counter, v :: vs =>
    let n := nextFree stem used used.length counter
    let (others, last) := mint stem used n vs
    ((v, blank stem n) :: others, last)

/-- The blank nodes of a production on a set of facts. -/
def resolve (s : SkolemTable) (production : ProductionId) (support : List Triple)
    (vars : List Variable) (used : List Term) : SkolemTable × List (Variable × Term) :=
  let key := (production, Sorted.ofList support)
  match s.minted.lookup key with
  | some found => (s, found)
  | none =>
    let (fresh, last) := mint s.stem used s.counter vars
    ({ s with counter := last, minted := s.minted ++ [(key, fresh)] }, fresh)

end SkolemTable

end HornReasoner
