import HornReasoner.Rdf.Binding

/-! Horn rules: a conjunctive body and a conjunctive head.

A rule built by `ofAtoms` has no blank nodes: they become variables. The variables of
the head that the body lacks are its existentials; each firing finds new blank nodes
for them. -/
namespace HornReasoner

structure HornRule where
  label : String
  body : List Triple
  head : List Triple
  existentials : List Variable := []
deriving DecidableEq, Repr, Inhabited

namespace HornRule

/-- A blank node stands for a variable of a rule. -/
def withoutBlank : Term → Term
  | .blank label => .var ⟨"_" ++ label⟩
  | t => t

/-- The variables of `head` that `body` lacks, each once, in order. -/
def headOnly (body head : List Triple) : List Variable :=
  ((head.flatMap Triple.vars).filter fun v =>
    !(body.flatMap Triple.vars).contains v).eraseDups

def ofAtoms (label : String) (body head : List Triple) : HornRule :=
  let body := body.map (·.map withoutBlank)
  let head := head.map (·.map withoutBlank)
  { label, body, head, existentials := headOnly body head }

/-- The rule built anew from its own body and head. -/
def normalized (r : HornRule) : HornRule := ofAtoms r.label r.body r.head

/-- The head holds whatever the facts. -/
def isUniversalTruth (r : HornRule) : Bool := r.body.isEmpty

def bodyVariables (r : HornRule) : List Variable := r.body.flatMap Triple.vars

def headVariables (r : HornRule) : List Variable := r.head.flatMap Triple.vars

def isExistential (r : HornRule) (v : Variable) : Bool := r.existentials.contains v

def renderSide (ts : List Triple) : String :=
  "\x7b " ++ " . ".intercalate (ts.map Triple.renderBare) ++ " \x7d"

def render (r : HornRule) : String := renderSide r.body ++ " => " ++ renderSide r.head

end HornRule

end HornReasoner
