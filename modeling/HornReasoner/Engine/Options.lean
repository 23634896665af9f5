import HornReasoner.Json.Reader
import HornReasoner.Json.Record
import HornReasoner.Network.Basic

/-! What an engine is told before it starts, and its JSON form. -/
namespace HornReasoner

structure EngineOptions where
  /-- Compile the axioms of ontologies into rules. -/
  compileAxioms : Bool := true
  /-- Add the supplement when an ontology is loaded. -/
  addSupplement : Bool := true
  standardBuiltins : Bool := true
  recordProvenance : Bool := true
  recordAlternates : Bool := true
  /-- A closure takes the triples of the ontology as facts, too. -/
  feedOntology : Bool := true
  blankStem : Option String := none
deriving DecidableEq, Repr

namespace EngineOptions

def toJson (o : EngineOptions) : Json :=
  .object [("enable_dlp", .bool o.compileAxioms),
    ("enable_non_horn_semantics", .bool o.addSupplement),
    ("standard_builtins", .bool o.standardBuiltins),
    ("record_provenance", .bool o.recordProvenance),
    ("record_alternate_justifications", .bool o.recordAlternates),
    ("feed_ontology_triples", .bool o.feedOntology),
    ("blank_prefix", .option .string o.blankStem)]

/-- Every field has its usual value unless it is written. -/
def ofJson? (j : Json) : Option EngineOptions :=
  match j.record? [.withDefault "enable_dlp" (.bool true),
      .withDefault "enable_non_horn_semantics" (.bool true),
      .withDefault "standard_builtins" (.bool true),
      .withDefault "record_provenance" (.bool true),
      .withDefault "record_alternate_justifications" (.bool true),
      .withDefault "feed_ontology_triples" (.bool true),
      .withDefault "blank_prefix" .null] with
  | some [axioms, supplement, builtins, provenance, alternates, feeding, stem] => do
    return {
      compileAxioms := ← axioms.bool?
      addSupplement := ← supplement.bool?
      standardBuiltins := ← builtins.bool?
      recordProvenance := ← provenance.bool?
      recordAlternates := ← alternates.bool?
      feedOntology := ← feeding.bool?
      blankStem := ← stem.option? Json.string? }
  | _ => none

def ofText? (text : String) : Option EngineOptions := (Json.parse? text).bind ofJson?

/-- The part that concerns the network. -/
def network (o : EngineOptions) : NetworkOptions :=
  { recordProvenance := o.recordProvenance
    recordAlternates := o.recordAlternates
    blankStem := o.blankStem }

end EngineOptions

end HornReasoner
