import HornReasoner.Engine.Options
import HornReasoner.Network.Build
import HornReasoner.Ontology.Axiom
import HornReasoner.Ontology.Supplement

/-! The engine: rules, rule sets and ontologies go into one network, and facts are fed
to it.

Whatever may run rules has the `budget` of the network's runs, and no result if that is
used up. What fails later than it began leaves the work done before. -/
namespace HornReasoner
open Network (BuildReport FeedError FeedReport)

/-- Why an engine did not do what it was told. -/
inductive EngineError where
  | rules (error : RuleError)
  | network (error : FeedError)
  | ontology (error : OntologyError)
  /-- Options that are not valid JSON. -/
  | options
  /-- The source of the facts failed, in its own words. -/
  | collaborator (message : String)

namespace EngineError

def message : EngineError → String
  | rules error => "Rule error: " ++ error.message
  | network error => "Network error: " ++ error.message
  | ontology error => "Ontology compilation error: " ++ error.message
  | options => "Configuration error"
  | collaborator message => "Collaborator failed: " ++ message

end EngineError

/-- Options from JSON text. -/
def EngineOptions.ofText (text : String) : Except EngineError EngineOptions :=
  match ofText? text with
  | some o => .ok o
  | none => .error .options

structure Engine where
  options : EngineOptions
  network : Network
  /-- Rules and axioms skipped so far. -/
  diagnostics : List Diagnostic := []
  supplementLoaded : Bool := false

/-- What a closure computation found. -/
structure ClosureReport where
  /-- Every triple inferred so far, sorted. -/
  inferred : List Triple
  /-- Facts that were new to the engine. -/
  processed : Nat
  network : NetworkStats
  diagnostics : List Diagnostic
deriving DecidableEq

namespace Engine

/-- An engine without rules and facts; `drawn` is as for its network. -/
def new (options : EngineOptions := {}) (drawn : String := "sk") : Engine :=
  let builtins := if options.standardBuiltins then Registry.standard else ∅
  { options, network := .new builtins options.network drawn }

/-- The facts, asserted and inferred. -/
def closure (e : Engine) : Graph := e.network.workingMemory

def stats (e : Engine) : NetworkStats := e.network.stats

/-! ### Rules -/

/-- Adds rules; the dropped ones are remembered. -/
def loadRules (budget : Nat) (e : Engine) (rules : List HornRule) :
    Option (Engine × BuildReport) :=
  (e.network.addRules budget rules).map fun (network, report) =>
    ({ e with network, diagnostics := e.diagnostics ++ report.dropped }, report)

/-- Feeds ground facts. -/
def feed (budget : Nat) (e : Engine) (facts : List Triple)
    (stop : Readings := e.network.cancellation.readings) :
    Option (Engine × Except EngineError FeedReport) :=
  (e.network.feed budget facts stop).map fun (network, report) =>
    ({ e with network }, report.mapError .network)

/-- Adds the rules of a set, then feeds its facts. -/
def loadRuleset (budget : Nat) (e : Engine) (r : Ruleset)
    (stop : Readings := e.network.cancellation.readings) :
    Option (Engine × Except EngineError BuildReport) := do
  let (e, report) ← e.loadRules budget r.rules
  if r.facts.isEmpty then return (e, .ok report)
  let (e, fed) ← e.feed budget r.facts stop
  return (e, fed.map fun _ => report)

/-- Loads a document of rules and facts. -/
def loadDocument (budget : Nat) (e : Engine) (text : String)
    (stop : Readings := e.network.cancellation.readings) :
    Option (Engine × Except EngineError BuildReport) :=
  match N3.parse text with
  | .ok r => e.loadRuleset budget r stop
  | .error error => some (e, .error (.rules error))

/-! ### Ontologies -/

/-- Loads the supplement, once and if the options say so. -/
def loadSupplement (budget : Nat) (e : Engine) :
    Option (Engine × Except EngineError BuildReport) :=
  if !e.options.addSupplement || e.supplementLoaded then some (e, .ok {})
  else
    match Ontology.supplement with
    | .error error => some (e, .error (.ontology (.rules error)))
    | .ok r => (e.loadRules budget r.rules).map fun (e, report) =>
      ({ e with supplementLoaded := true }, .ok report)

section Source
variable {σ : Type} [TripleSource σ]

/-- Compiles the axioms of a source and adds their rules, if the options say so. -/
def loadAxioms (budget : Nat) (e : Engine) (source : σ) : Option (Engine × BuildReport) :=
  if e.options.compileAxioms then
    let compiled := Ontology.compile source
    { e with diagnostics := e.diagnostics ++ compiled.diagnostics }.loadRules budget compiled.rules
  else some (e, {})

/-- Loads an ontology: the supplement, then its axioms. -/
def loadOntology (budget : Nat) (e : Engine) (source : σ) :
    Option (Engine × Except EngineError BuildReport) := do
  match ← e.loadSupplement budget with
  | (e, .error error) => return (e, .error error)
  | (e, .ok supplement) =>
    let (e, axioms) ← e.loadAxioms budget source
    return (e, .ok (supplement.append axioms))

end Source

/-! ### Closures -/

def result (e : Engine) (processed : Nat) : ClosureReport :=
  { inferred := e.network.inferred.sorted
    processed
    network := e.stats
    diagnostics := e.diagnostics }

/-- Feeds the triples of an ontology, if the options say so, and counts the new ones. -/
def feedOntology (budget : Nat) (e : Engine) (g : Graph)
    (stop : Readings := e.network.cancellation.readings) :
    Option (Engine × Except EngineError Nat) :=
  if e.options.feedOntology then
    (e.feed budget g.toList stop).map fun (e, report) => (e, report.map FeedReport.asserted)
  else some (e, .ok 0)

/-- Loads a graph as an ontology and feeds its triples. -/
def computeClosure (budget : Nat) (e : Engine) (g : Graph)
    (stop : Readings := e.network.cancellation.readings) :
    Option (Engine × Except EngineError ClosureReport) := do
  match ← e.loadOntology budget g with
  | (e, .error error) => return (e, .error error)
  | (e, .ok _) =>
    let (e, processed) ← e.feedOntology budget g stop
    return (e, processed.map e.result)

/-- Forgets all facts and keeps the rules. -/
def reset (budget : Nat) (e : Engine) : Option Engine :=
  (e.network.reset budget).map fun network => { e with network }

end Engine

end HornReasoner
