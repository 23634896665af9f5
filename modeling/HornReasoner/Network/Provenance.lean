import HornReasoner.Network.Node

/-! Why triples were inferred. -/
namespace HornReasoner

/-- A firing that derives a triple: the rule and the facts that matched its body, in
body order. -/
structure Justification where
  production : ProductionId
  rule : String
  support : List Triple
deriving DecidableEq, Repr

/-- Inferred triples with their justifications, the first derivation first. -/
abbrev Provenance := Buckets Triple Justification

namespace Provenance

def justifications (p : Provenance) (t : Triple) : List Justification := p.find t

/-- Production and support are those of a known justification. -/
def knows (p : Provenance) (t : Triple) (j : Justification) : Bool :=
  (p.justifications t).any fun k => k.production = j.production && k.support = j.support

/-- Adds a justification; whether it was new. Unless alternates are kept, only the
first one counts. -/
def record (p : Provenance) (t : Triple) (j : Justification) (keepAlternates : Bool) :
    Provenance × Bool :=
  if (!keepAlternates && !(p.justifications t).isEmpty) || p.knows t j then (p, false)
  else (p.add t j, true)

end Provenance

end HornReasoner
