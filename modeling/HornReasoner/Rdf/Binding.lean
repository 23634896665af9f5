import HornReasoner.Order.SortedMap
import HornReasoner.Rdf.Term

/-! Bindings: partial functions from variables to terms.

A variable, once bound, keeps its value: `bind` refuses another one and `merge`
fails where two bindings differ. -/
namespace HornReasoner

abbrev Binding := SortedMap Variable Term

namespace Binding

/-- Fails if `v` is bound to something else. -/
def bind (b : Binding) (v : Variable) (t : Term) : Option Binding :=
  match b.get? v with
  | some u => if u = t then some b else none
  | none => some (b.insert v t)

/-- No entry of `small` has another value in `large`. -/
def fitsInto (small large : Binding) : Bool :=
  small.toList.all fun e => (large.get? e.1).all (· = e.2)

/-- Every variable bound by both has the same value in both. The smaller one is walked. -/
def agreesWith (a b : Binding) : Bool :=
  if a.size ≤ b.size then a.fitsInto b else b.fitsInto a

/-- The union of two bindings that agree. -/
def merge (a b : Binding) : Option Binding :=
  if a.agreesWith b then some (a.insertAllIfNew b.toList) else none

/-- The values of `vs` in order, if all of them are bound. -/
def keyFor (b : Binding) (vs : List Variable) : Option (List Term) := vs.mapM b.get?

def compareEntries : List (Variable × Term) → List (Variable × Term) → Ordering
  | [], [] => .eq
  | [], _ :: _ => .lt
  | _ :: _, [] => .gt
  | (v, t) :: as, (w, u) :: bs => ((compare v w).then (compare t u)).then (compareEntries as bs)

/-- Entry by entry, then the shorter one first. -/
instance : Ord Binding := ⟨fun a b => compareEntries a.toList b.toList⟩

def render (b : Binding) : String :=
  "\x7b" ++ ", ".intercalate (b.toList.map fun e => e.1.render ++ " -> " ++ e.2.render) ++ "\x7d"

/-! ### Matching -/

/-- A variable takes the fact's term, anything else must be it. -/
def matchTerm (b : Binding) (pattern fact : Term) : Option Binding :=
  match pattern with
  | .var v => b.bind v fact
  | constant => if constant = fact then some b else none

/-- The binding under which `pattern` is `fact`: constants agree and a repeated
variable meets one value only. -/
def ofMatch (pattern fact : Triple) : Option Binding := do
  let b ← matchTerm ∅ pattern.subject fact.subject
  let b ← matchTerm b pattern.predicate fact.predicate
  matchTerm b pattern.object fact.object

end Binding

/-- A bound variable becomes its value; a constant is its own. -/
def Term.resolve (b : Binding) : Term → Option Term
  | var v => b.get? v
  | constant => some constant

/-- The variables of `t` without a value, each once. -/
def Triple.unbound (b : Binding) (t : Triple) : List Variable :=
  (t.vars.filter fun v => !b.contains v).eraseDups

/-- The instance of `t`, or the variables that stand in its way. -/
def Triple.substitute (b : Binding) (t : Triple) : Except (List Variable) Triple :=
  match t.unbound b with
  | [] => .ok (t.map fun x => (x.resolve b).getD x)
  | vs => .error vs

end HornReasoner
