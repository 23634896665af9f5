import HornReasoner.Rdf.Json
import HornReasoner.Rdf.Vocabulary

/-! Property and class expressions of OWL. -/
namespace HornReasoner

/-- A named property or the inverse of a property expression. -/
inductive PropertyExpr where
  | named (property : Term)
  | inverseOf (inner : PropertyExpr)
deriving DecidableEq, Repr, Inhabited

namespace PropertyExpr

/-- The triple that relates `s` to `o`; each inversion swaps them. -/
def atom : PropertyExpr → Term → Term → Triple
  | named p, s, o => ⟨s, p, o⟩
  | inverseOf inner, s, o => inner.atom o s

def render : PropertyExpr → String
  | named p => p.describe
  | inverseOf inner => "inverse(" ++ inner.render ++ ")"

def toJson : PropertyExpr → Json
  | named p => .object [("Named", p.toJson)]
  | inverseOf inner => .object [("InverseOf", inner.toJson)]

end PropertyExpr

inductive CardinalityKind where
  | min
  | max
  | exact
deriving DecidableEq, Repr

def CardinalityKind.name : CardinalityKind → String
  | min => "Min"
  | max => "Max"
  | exact => "Exact"

inductive ClassExpr where
  /-- A named class, or an anonymous one without a description. -/
  | named (cls : Term)
  | thing
  | nothing
  | intersectionOf (parts : List ClassExpr)
  | unionOf (parts : List ClassExpr)
  | complementOf (inner : ClassExpr)
  | oneOf (items : List Term)
  | someValuesFrom (property : PropertyExpr) (filler : ClassExpr)
  | allValuesFrom (property : PropertyExpr) (filler : ClassExpr)
  | hasValue (property : PropertyExpr) (value : Term)
  | cardinality (kind : CardinalityKind) (property : PropertyExpr) (value : Term)
deriving Inhabited

namespace ClassExpr

mutual

def render : ClassExpr → String
  | named c => c.describe
  | thing => "owl:Thing"
  | nothing => "owl:Nothing"
  | intersectionOf parts => "and(" ++ renderAll parts ++ ")"
  | unionOf parts => "or(" ++ renderAll parts ++ ")"
  | complementOf inner => "not(" ++ inner.render ++ ")"
  | oneOf items => "oneOf(" ++ ", ".intercalate (items.map Term.describe) ++ ")"
  | someValuesFrom property filler => "some(" ++ property.render ++ ", " ++ filler.render ++ ")"
  | allValuesFrom property filler => "all(" ++ property.render ++ ", " ++ filler.render ++ ")"
  | hasValue property value => "value(" ++ property.render ++ ", " ++ value.describe ++ ")"
  | cardinality kind property value =>
    kind.name ++ "Cardinality(" ++ property.render ++ ", " ++ value.describe ++ ")"

def renderAll : List ClassExpr → String
  | [] => ""
  | [part] => part.render
  | part :: rest => part.render ++ ", " ++ renderAll rest

end

mutual

def toJson : ClassExpr → Json
  | named c => .object [("Named", c.toJson)]
  | thing => .string "Thing"
  | nothing => .string "Nothing"
  | intersectionOf parts => .object [("IntersectionOf", .array (toJsons parts))]
  | unionOf parts => .object [("UnionOf", .array (toJsons parts))]
  | complementOf inner => .object [("ComplementOf", inner.toJson)]
  | oneOf items => .object [("OneOf", .list Term.toJson items)]
  | someValuesFrom property filler =>
    .object [("SomeValuesFrom",
      .object [("property", property.toJson), ("filler", filler.toJson)])]
  | allValuesFrom property filler =>
    .object [("AllValuesFrom",
      .object [("property", property.toJson), ("filler", filler.toJson)])]
  | hasValue property value =>
    .object [("HasValue", .object [("property", property.toJson), ("value", value.toJson)])]
  | cardinality kind property value =>
    .object [("Cardinality", .object [("kind", .string kind.name),
      ("property", property.toJson), ("value", value.toJson)])]

def toJsons : List ClassExpr → List Json
  | [] => []
  | part :: rest => part.toJson :: toJsons rest

end

end ClassExpr

end HornReasoner
