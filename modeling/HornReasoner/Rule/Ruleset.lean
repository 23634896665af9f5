import HornReasoner.Rdf.Json
import HornReasoner.Rule.Horn

/-! Rule sets: namespace names, rules and facts, and their JSON form. -/
namespace HornReasoner

/-- Why rules or facts could not be read. -/
inductive RuleError where
  /-- The document breaks the grammar at this place. -/
  | parse (line column : Nat) (message : String)
  | variableInFact (fact : Triple)
  | json
deriving DecidableEq, Repr

def RuleError.message : RuleError → String
  | parse line column message =>
    "Parse error at line " ++ toString line ++ ", column " ++ toString column ++ ": " ++ message
  | variableInFact fact => "Invalid rule: fact contains variables: " ++ fact.render
  | json => "JSON error"

namespace HornRule

def toJson (r : HornRule) : Json :=
  .object [("label", .string r.label), ("body", .list Triple.toJson r.body),
    ("head", .list Triple.toJson r.head),
    ("existentials", .list (fun v => .string v.name) r.existentials)]

def ofJson? (j : Json) : Option HornRule :=
  match j.record? [{ name := "label" }, { name := "body" }, { name := "head" },
      .withDefault "existentials" (.array [])] with
  | some [label, body, head, existentials] => do
    return {
      label := ← label.string?
      body := ← body.list? Triple.ofJson?
      head := ← head.list? Triple.ofJson?
      existentials := (← existentials.list? Json.string?).map Variable.mk }
  | _ => none

end HornRule

structure Ruleset where
  prefixes : SortedMap String String := ∅
  rules : List HornRule := []
  facts : List Triple := []
deriving DecidableEq

namespace Ruleset

def isEmpty (r : Ruleset) : Bool := r.rules.isEmpty && r.facts.isEmpty

/-- The names of `other` win; its rules and facts come last. -/
def extend (r other : Ruleset) : Ruleset :=
  { prefixes := r.prefixes.insertAll other.prefixes.toList
    rules := r.rules ++ other.rules
    facts := r.facts ++ other.facts }

def toJson (r : Ruleset) : Json :=
  .object [("prefixes", .object (r.prefixes.toList.map fun e => (e.1, .string e.2))),
    ("rules", .list HornRule.toJson r.rules), ("facts", .list Triple.toJson r.facts)]

def toText (r : Ruleset) : String := r.toJson.pretty

/-- A name that occurs twice has its last value. -/
def prefixes? : Json → Option (SortedMap String String)
  | .object fields => do
    return .ofList (← fields.mapM fun e => e.2.string?.map (e.1, ·))
  | _ => none

def ofJson? (j : Json) : Option Ruleset :=
  match j.record? [.withDefault "prefixes" (.object []), .withDefault "rules" (.array []),
      .withDefault "facts" (.array [])] with
  | some [prefixes, rules, facts] => do
    return {
      prefixes := ← prefixes? prefixes
      rules := ← rules.list? HornRule.ofJson?
      facts := ← facts.list? Triple.ofJson? }
  | _ => none

/-- Reads a rule set. Rules are built anew, whatever existentials they list, and facts
hold no variables. -/
def ofText (text : String) : Except RuleError Ruleset :=
  match (Json.parse? text).bind ofJson? with
  | none => .error .json
  | some read =>
    match read.facts.find? Triple.hasVariables with
    | some fact => .error (.variableInFact fact)
    | none => .ok { read with rules := read.rules.map HornRule.normalized }

end Ruleset

end HornReasoner
