import HornReasoner.Ontology.ClassExpr
import HornReasoner.Rdf.Collection
import HornReasoner.Rule.Ruleset

/-! What can be wrong with an axiom. -/
namespace HornReasoner

inductive OntologyError where
  | collection (fault : Collection.Fault)
  /-- A restriction without `owl:onProperty`. -/
  | missingProperty (node : Term)
  /-- A restriction that restricts nothing. -/
  | emptyRestriction (node : Term)
  /-- Several objects where one is meant. -/
  | manyValues (node : Term) (count : Nat) (predicate : String)
  /-- Several kinds of restriction in one, or one kind twice. -/
  | manyFillers (node : Term) (predicates : List String)
  /-- The description leads back to the node. -/
  | cyclic (node : Term)
  /-- No Horn form in a head, in a body, or at all. -/
  | unsupportedInHead (cls : ClassExpr)
  | unsupportedInBody (cls : ClassExpr)
  | unsupported (cls : ClassExpr)
  | rules (error : RuleError)

namespace OntologyError

def message : OntologyError → String
  | collection fault => "List error: " ++ fault.message
  | missingProperty node => "Restriction without owl:onProperty: " ++ node.describe
  | emptyRestriction node => "Restriction without a filler: " ++ node.describe
  | manyValues node count predicate =>
    "Ambiguous restriction: " ++ node.describe ++ " has " ++ toString count ++ " values for " ++
      Vocabulary.compact predicate
  | manyFillers node predicates =>
    "Ambiguous restriction: " ++ node.describe ++ " has " ++
      ", ".intercalate (predicates.map Vocabulary.compact)
  | cyclic node => "Cyclic class expression through " ++ node.describe
  | unsupportedInHead cls => "Unsupported construct: " ++ cls.render ++ " in a head"
  | unsupportedInBody cls => "Unsupported construct: " ++ cls.render ++ " in a body"
  | unsupported cls => "Unsupported construct: " ++ cls.render
  | rules error => "Rule error: " ++ error.message

end OntologyError

end HornReasoner
