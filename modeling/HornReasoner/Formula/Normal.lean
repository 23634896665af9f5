import HornReasoner.Formula.Basic
import HornReasoner.Rule.Diagnostic
import HornReasoner.Rule.Horn

/-! Clauses to Horn rules.

A conjunctive head splits into a rule per part, an implication in the head moves its
body to the body, and a disjunctive body gives a rule per alternative. What no Horn
rule expresses is dropped with a diagnostic: disjunctions in the head, implications
and more than one disjunction in the body. -/
namespace HornReasoner

namespace Formula

/-! ### Bodies -/

mutual

/-- The disjunctions of a formula, one directly inside another counted with it. -/
def countDisjunctions (insideDisj : Bool) : Formula → Nat
  | atom _ => 0
  | conj parts => countAll false parts
  | disj parts => (if insideDisj then 0 else 1) + countAll true parts
  | exist _ inner => inner.countDisjunctions insideDisj
  | implies body head => body.countDisjunctions false + head.countDisjunctions false

def countAll (insideDisj : Bool) : List Formula → Nat
  | [] => 0
  | part :: rest => part.countDisjunctions insideDisj + countAll insideDisj rest

end

/-- Each of the first alternatives followed by each of the second ones. -/
def pairs (first second : List (List Triple)) : List (List Triple) :=
  first.flatMap fun a => second.map fun b => a ++ b

mutual

/-- The conjunctions of atoms of which one has to hold, or the first implication met. -/
def alternatives : Formula → Except Formula (List (List Triple))
  | atom t => .ok [[t]]
  | conj parts => (alternativesOf parts).map fun options => options.foldl pairs [[]]
  | disj parts => (alternativesOf parts).map List.flatten
  | exist _ inner => inner.alternatives
  | implies body head => .error (implies body head)

def alternativesOf : List Formula → Except Formula (List (List (List Triple)))
  | [] => .ok []
  | part :: rest =>
    match part.alternatives with
    | .error f => .error f
    | .ok options => (alternativesOf rest).map (options :: ·)

end

/-! ### Heads -/

mutual

/-- The atoms of a formula of atoms and conjunctions, quantified or not. -/
def conjuncts? : Formula → Option (List Triple)
  | atom t => some [t]
  | conj parts => conjunctsOf? parts
  | exist _ inner => inner.conjuncts?
  | disj _ => none
  | implies _ _ => none

def conjunctsOf? : List Formula → Option (List Triple)
  | [] => some []
  | part :: rest => do return (← part.conjuncts?) ++ (← conjunctsOf? rest)

end

end Formula

namespace Clause

/-- Why a part of a clause has no Horn rule. -/
inductive Obstacle where
  | disjunctiveHead (head : Formula)
  | existentialHead (inner : Formula)
  | manyDisjunctions (count : Nat)
  | implication (formula : Formula)
  | neverHolds (body : Formula)
  | alwaysTrue (body : Formula)

def Obstacle.message : Obstacle → String
  | disjunctiveHead head => "disjunction in head: " ++ head.render
  | existentialHead inner =>
    "existential head is not a conjunction of atoms: " ++ inner.render
  | manyDisjunctions count => toString count ++ " disjunctions in body"
  | implication formula => "implication in body: " ++ formula.render
  | neverHolds body => "body can never hold: " ++ body.render
  | alwaysTrue body => "body alternative of " ++ body.render ++ " is always true"

/-- A head and the body it follows from. -/
structure Implication where
  head : Formula
  body : Formula

/-- A part of a clause whose head is a conjunction of atoms, or one that is dropped. -/
inductive Part where
  | rule (head : List Triple) (body : Formula)
  | dropped (obstacle : Obstacle)

/-- Takes heads apart, first come first served. Each step removes a node of a head, so
a `fuel` of all their nodes is never used up. -/
def split : Nat → List Implication → List Part
  | 0, _ => []
  | _ + 1, [] => []
  | fuel + 1, ⟨head, body⟩ :: queue =>
    match head with
    | .atom t => .rule [t] body :: split fuel queue
    | .conj parts => split fuel (queue ++ parts.map fun part => ⟨part, body⟩)
    | .implies inner head => split fuel (queue ++ [⟨head, .and [body, inner]⟩])
    | .disj parts => .dropped (.disjunctiveHead (.disj parts)) :: split fuel queue
    | .exist _ inner =>
      match inner.conjuncts? with
      | some atoms => .rule atoms body :: split fuel queue
      | none => .dropped (.existentialHead inner) :: split fuel queue

def parts (c : Clause) : List Part := split (c.head.size + 1) [⟨c.head, c.body⟩]

/-- One body of atoms with its head, or one that is dropped. -/
inductive Candidate where
  | rule (head body : List Triple)
  | dropped (obstacle : Obstacle)

/-- Splits the body of a part. An alternative without atoms is a rule only where the
clause was written with an empty body. -/
def Part.candidates (truth : Bool) : Part → List Candidate
  | dropped obstacle => [.dropped obstacle]
  | rule head body =>
    let disjunctions := body.countDisjunctions false
    if disjunctions > 1 then [.dropped (.manyDisjunctions disjunctions)]
    else
      match body.alternatives with
      | .error f => [.dropped (.implication f)]
      | .ok [] => [.dropped (.neverHolds body)]
      | .ok options => options.map fun atoms =>
        if atoms.isEmpty && !truth then .dropped (.alwaysTrue body) else .rule head atoms

def candidates (c : Clause) : List Candidate :=
  c.parts.flatMap (Part.candidates c.body.isEmptyConj)

/-- The first rule has the clause's label, the others a number behind it. -/
def ruleLabel (c : Clause) (n : Nat) : String :=
  if n = 0 then c.label else c.label ++ "#" ++ toString n

end Clause

/-- Horn rules, and what had to be left out. -/
structure Normalized where
  rules : List HornRule := []
  dropped : List Diagnostic := []
deriving DecidableEq

namespace Clause

/-- Adds a candidate to what was made of the clause so far. -/
def record (c : Clause) (n : Normalized) : Candidate → Normalized
  | .rule head body =>
    { n with rules := n.rules ++ [.ofAtoms (c.ruleLabel n.rules.length) body head] }
  | .dropped obstacle => { n with dropped := n.dropped ++ [⟨c.label, obstacle.message⟩] }

def normalize (c : Clause) : Normalized := c.candidates.foldl c.record {}

/-- The rules and the diagnostics of all clauses. -/
def normalizeAll (cs : List Clause) : Normalized :=
  { rules := cs.flatMap fun c => c.normalize.rules
    dropped := cs.flatMap fun c => c.normalize.dropped }

end Clause

end HornReasoner
