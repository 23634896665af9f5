import HornReasoner.Rdf.Json
import HornReasoner.Rdf.Vocabulary

/-! Formulas over triples, and clauses `head :- body`. -/
namespace HornReasoner

inductive Formula where
  | atom (triple : Triple)
  | conj (parts : List Formula)
  | disj (parts : List Formula)
  | exist (vars : List Variable) (inner : Formula)
  | implies (body head : Formula)
deriving Inhabited

namespace Formula

/-- The triple says that `individual` is a `cls`. -/
def classAtom (individual cls : Term) : Formula :=
  atom ⟨individual, .iri Vocabulary.Rdf.type, cls⟩

/-- The conjunction; of one part, the part itself. -/
def and : List Formula → Formula
  | [part] => part
  | parts => conj parts

/-- The disjunction; of one part, the part itself. -/
def or : List Formula → Formula
  | [part] => part
  | parts => disj parts

def isEmptyConj : Formula → Bool
  | conj [] => true
  | _ => false

/-! ### Size and atoms -/

mutual

/-- The number of nodes. -/
def size : Formula → Nat
  | atom _ => 1
  | conj parts => sizes parts + 1
  | disj parts => sizes parts + 1
  | exist _ inner => inner.size + 1
  | implies body head => body.size + head.size + 1

def sizes : List Formula → Nat
  | [] => 0
  | part :: rest => part.size + sizes rest

end

/-- The atoms of a stack of formulas, taken from the top one at a time. -/
def walk : Nat → List Formula → List Triple
  | 0, _ => []
  | _ + 1, [] => []
  | fuel + 1, atom t :: stack => t :: walk fuel stack
  | fuel + 1, conj parts :: stack => walk fuel (parts ++ stack)
  | fuel + 1, disj parts :: stack => walk fuel (parts ++ stack)
  | fuel + 1, exist _ inner :: stack => walk fuel (inner :: stack)
  | fuel + 1, implies body head :: stack => walk fuel (body :: head :: stack)

/-- The atoms in the order in which they are written, a body before its head. -/
def atoms (f : Formula) : List Triple := walk f.size [f]

/-! ### Text -/

mutual

def render : Formula → String
  | atom t => t.renderBare
  | conj parts => "And(" ++ renderAll parts ++ ")"
  | disj parts => "Or(" ++ renderAll parts ++ ")"
  | exist vars inner =>
    "Exists " ++ " ".intercalate (vars.map Variable.render) ++ " (" ++ inner.render ++ ")"
  | implies body head => "(" ++ head.render ++ " :- " ++ body.render ++ ")"

def renderAll : List Formula → String
  | [] => ""
  | [part] => part.render
  | part :: rest => part.render ++ ", " ++ renderAll rest

end

mutual

def toJson : Formula → Json
  | atom t => .tagged "Atom" t.toJson
  | conj parts => .tagged "And" (.array (toJsons parts))
  | disj parts => .tagged "Or" (.array (toJsons parts))
  | exist vars inner =>
    .tagged "Exists" (.array [.list (fun v => .string v.name) vars, inner.toJson])
  | implies body head =>
    .tagged "Implies" (.object [("body", body.toJson), ("head", head.toJson)])

def toJsons : List Formula → List Json
  | [] => []
  | part :: rest => part.toJson :: toJsons rest

end

end Formula

structure Clause where
  label : String
  head : Formula
  body : Formula
deriving Inhabited

def Clause.render (c : Clause) : String := c.head.render ++ " :- " ++ c.body.render

end HornReasoner
