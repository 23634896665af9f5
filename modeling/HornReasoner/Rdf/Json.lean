import HornReasoner.Json.Reader
import HornReasoner.Json.Record
import HornReasoner.Rdf.Graph

/-! Terms, triples, bindings and graphs as JSON. A graph is the array of its triples. -/
namespace HornReasoner

namespace Literal

def toJson (l : Literal) : Json :=
  .object [("lexical", .string l.lexical), ("datatype", .option .string l.datatype),
    ("language", .option .string l.language)]

def ofJson? (j : Json) : Option Literal :=
  match j.record? [{ name := "lexical" }, { name := "datatype", absent := some .null },
      { name := "language", absent := some .null }] with
  | some [lexical, datatype, language] => do
    return ⟨← lexical.string?, ← datatype.option? Json.string?, ← language.option? Json.string?⟩
  | _ => none

end Literal

namespace Term

def toJson : Term → Json
  | iri s => .tagged "Iri" (.string s)
  | literal l => .tagged "Literal" l.toJson
  | blank s => .tagged "Blank" (.string s)
  | var v => .tagged "Variable" (.string v.name)

def ofJson? (j : Json) : Option Term :=
  match j.tagged? with
  | some ("Iri", content) => content.string?.map iri
  | some ("Literal", content) => (Literal.ofJson? content).map literal
  | some ("Blank", content) => content.string?.map blank
  | some ("Variable", content) => content.string?.map fun s => var ⟨s⟩
  | _ => none

end Term

namespace Triple

def toJson (t : Triple) : Json :=
  .object [("subject", t.subject.toJson), ("predicate", t.predicate.toJson),
    ("object", t.object.toJson)]

def ofJson? (j : Json) : Option Triple :=
  match j.record? [{ name := "subject" }, { name := "predicate" }, { name := "object" }] with
  | some [s, p, o] => do return ⟨← Term.ofJson? s, ← Term.ofJson? p, ← Term.ofJson? o⟩
  | _ => none

end Triple

def Binding.toJson (b : Binding) : Json :=
  .object [("values", .object (b.toList.map fun e => (e.1.name, e.2.toJson)))]

namespace Graph

def toJson (g : Graph) : Json := .list Triple.toJson g.toList

def toText (g : Graph) : String := g.toJson.pretty

/-- The graph of the array's triples; repeated triples count once. -/
def ofText? (text : String) : Option Graph := do
  return ofList (← (← Json.parse? text).list? Triple.ofJson?)

end Graph

end HornReasoner
