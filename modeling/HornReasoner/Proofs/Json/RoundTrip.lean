import HornReasoner.Proofs.Json.Text
import HornReasoner.Proofs.N3.Lexing
import HornReasoner.Proofs.N3.Trees
import HornReasoner.Proofs.Order.Lookup
import HornReasoner.Proofs.Rdf.Edits
import HornReasoner.Proofs.Rule.Atoms

/-! Rule sets and graphs through their texts.

Each kind of record is written so that its own reader takes it back, and the text of what is written
is read as that (`Json.Reads`). What a rule set loses on the way is what its rules hold besides their
atoms: they are built anew. -/
namespace HornReasoner

/-! ### Parts -/

namespace Json

variable {α β : Type} {write : α → Json} {read : Json → Option β}

theorem list?_list_map {f : α → β} (h : ∀ a, read (write a) = some (f a)) (as : List α) :
    (Json.list write as).list? read = some (as.map f) := by
  show (as.map write).mapM read = some (as.map f)
  induction as with
  | nil => rfl
  | cons a as ih =>
    rw [List.map_cons, List.mapM_cons, h, ih]
    rfl

theorem list?_list {read : Json → Option α} (h : ∀ a, read (write a) = some a) (as : List α) :
    (Json.list write as).list? read = some as := by
  rw [list?_list_map (f := id) h, List.map_id]

end Json

theorem Literal.ofJson?_toJson (l : Literal) : ofJson? l.toJson = some l := by
  obtain ⟨lexical, datatype, language⟩ := l
  cases datatype <;> cases language <;> rfl

theorem Term.ofJson?_toJson (t : Term) : ofJson? t.toJson = some t := by
  cases t with
  | iri | blank | var => rfl
  | literal l =>
    show (Literal.ofJson? l.toJson).map literal = _
    rw [l.ofJson?_toJson]
    rfl

theorem Triple.ofJson?_toJson (t : Triple) : ofJson? t.toJson = some t := by
  show (do return ⟨← Term.ofJson? t.subject.toJson, ← Term.ofJson? t.predicate.toJson,
    ← Term.ofJson? t.object.toJson⟩ : Option Triple) = _
  rw [t.subject.ofJson?_toJson, t.predicate.ofJson?_toJson, t.object.ofJson?_toJson]
  rfl

theorem HornRule.ofJson?_toJson (r : HornRule) : ofJson? r.toJson = some r := by
  have hnames : (Json.list (fun v : Variable => .string v.name) r.existentials).list? Json.string? =
      some (r.existentials.map Variable.name) := Json.list?_list_map (f := Variable.name) (fun _ => rfl) _
  have hvars : (r.existentials.map Variable.name).map Variable.mk = r.existentials := by
    rw [List.map_map]
    exact List.map_id r.existentials
  show (do return {
      label := r.label
      body := ← (Json.list Triple.toJson r.body).list? Triple.ofJson?
      head := ← (Json.list Triple.toJson r.head).list? Triple.ofJson?
      existentials := (← (Json.list (fun v : Variable => .string v.name) r.existentials).list?
        Json.string?).map Variable.mk } : Option HornRule) = _
  rw [Json.list?_list Triple.ofJson?_toJson, Json.list?_list Triple.ofJson?_toJson, hnames]
  simp only [Option.bind_eq_bind, Option.bind_some, hvars]
  rfl

theorem Ruleset.prefixes?_object (prefixes : SortedMap String String) :
    prefixes? (.object (prefixes.toList.map fun e => (e.1, .string e.2))) = some prefixes := by
  have hfields (es : List (String × String)) :
      (es.map fun e => (e.1, Json.string e.2)).mapM (fun e => e.2.string?.map (e.1, ·)) = some es := by
    induction es with
    | nil => rfl
    | cons e es ih =>
      rw [List.map_cons, List.mapM_cons, ih]
      rfl
  show (do return SortedMap.ofList (← (prefixes.toList.map fun e => (e.1, Json.string e.2)).mapM
    fun e => e.2.string?.map (e.1, ·)) : Option (SortedMap String String)) = _
  rw [hfields]
  show some (SortedMap.ofList prefixes.toList) = _
  rw [SortedMap.ofList_toList]

theorem Ruleset.ofJson?_toJson (r : Ruleset) : ofJson? r.toJson = some r := by
  show (do return {
      prefixes := ← prefixes? (.object (r.prefixes.toList.map fun e => (e.1, .string e.2)))
      rules := ← (Json.list HornRule.toJson r.rules).list? HornRule.ofJson?
      facts := ← (Json.list Triple.toJson r.facts).list? Triple.ofJson? } : Option Ruleset) = _
  rw [prefixes?_object, Json.list?_list HornRule.ofJson?_toJson,
    Json.list?_list Triple.ofJson?_toJson]
  rfl

/-! ### Texts -/

namespace Json.Reads

theorem tagged (variant : String) {content : Json} (h : Reads content) :
    Reads (.tagged variant content) :=
  object (List.forall_mem_cons.mpr ⟨string variant, List.forall_mem_cons.mpr ⟨h, nofun⟩⟩)

theorem literal (l : Literal) : Reads l.toJson :=
  object (List.forall_mem_cons.mpr ⟨string l.lexical, List.forall_mem_cons.mpr
    ⟨option string l.datatype, List.forall_mem_cons.mpr ⟨option string l.language, nofun⟩⟩⟩)

theorem term (t : Term) : Reads t.toJson := by
  cases t with
  | iri s | blank s => exact tagged _ (string s)
  | var v => exact tagged _ (string v.name)
  | literal l => exact tagged _ (literal l)

theorem triple (t : Triple) : Reads t.toJson :=
  object (List.forall_mem_cons.mpr ⟨term t.subject, List.forall_mem_cons.mpr
    ⟨term t.predicate, List.forall_mem_cons.mpr ⟨term t.object, nofun⟩⟩⟩)

theorem rule (r : HornRule) : Reads r.toJson :=
  object (List.forall_mem_cons.mpr ⟨string r.label, List.forall_mem_cons.mpr
    ⟨list fun t _ => triple t, List.forall_mem_cons.mpr ⟨list fun t _ => triple t,
      List.forall_mem_cons.mpr ⟨list fun v _ => string v.name, nofun⟩⟩⟩⟩)

theorem ruleset (r : Ruleset) : Reads r.toJson := by
  refine object (List.forall_mem_cons.mpr ⟨object fun field hfield => ?_, List.forall_mem_cons.mpr
    ⟨list fun rule _ => Reads.rule rule, List.forall_mem_cons.mpr
      ⟨list fun t _ => triple t, nofun⟩⟩⟩)
  obtain ⟨e, _, rfl⟩ := List.mem_map.mp hfield
  exact string e.2

end Json.Reads

/-- The text of a rule set is read as the rule set with its rules built anew, if its facts may
stand. -/
theorem Ruleset.ofText_toText (r : Ruleset) : ofText r.toText =
    match r.facts.find? Triple.hasVariables with
    | some fact => .error (.variableInFact fact)
    | none => .ok { r with rules := r.rules.map HornRule.normalized } := by
  have hread : (Json.parse? r.toText).bind ofJson? = some r := by
    rw [toText, (Json.Reads.ruleset r).parse?_pretty, Option.bind_some, ofJson?_toJson]
  cases hfacts : r.facts.find? Triple.hasVariables with
  | none => simp only [ofText, hread, hfacts]
  | some fact => simp only [ofText, hread, hfacts]

theorem Graph.ofText?_toText (g : Graph) : ofText? g.toText = some g := by
  have hread : Json.parse? g.toText = some g.toJson :=
    (Json.Reads.list fun t _ => Json.Reads.triple t).parse?_pretty
  have hgraph : ofList g.toList = g := by
    ext1
    rw [toList_ofList, eraseDups_of_nodup g.nodup]
  rw [ofText?, hread, Option.bind_eq_bind, Option.bind_some, toJson,
    Json.list?_list Triple.ofJson?_toJson]
  show some (ofList g.toList) = some g
  rw [hgraph]

/-- So a rule set comes back as it is if its rules were built, and its facts may stand. -/
theorem Ruleset.ofText_toText_of_built {r : Ruleset} (hrules : ∀ rule ∈ r.rules, rule.Built)
    (hfacts : ∀ t ∈ r.facts, t.hasVariables = false) : ofText r.toText = .ok r := by
  have hnone : r.facts.find? Triple.hasVariables = none :=
    List.find?_eq_none.mpr fun t ht => by simp [hfacts t ht]
  have hsame : r.rules.map HornRule.normalized = r.rules :=
    (List.map_congr_left fun rule hrule => (hrules rule hrule).normalized_eq).trans (List.map_id _)
  rw [ofText_toText, hnone]
  simp only [hsame]

/-! ### Documents -/

namespace N3

theorem Document.built_of_mem_rules (d : Document) {scope : Scope} {before : Nat}
    {places : List Position} {rule : HornRule}
    (h : rule ∈ (d.ruleset scope before places).rules) : rule.Built := by
  induction d generalizing scope before places with
  | nil => cases h
  | cons st rest ih =>
    rcases List.mem_append.mp h with h | h
    · cases st with
      | rule first arrow second =>
        cases List.mem_singleton.mp h
        exact ⟨_, _, _, rfl⟩
      | declare | base | facts => cases h
    · exact ih h

theorem Document.ground_of_mem_facts {d : Document} {scope : Scope} {before : Nat}
    {places : List Position} (hadmissible : d.Admissible scope before) {t : Triple}
    (h : t ∈ (d.ruleset scope before places).facts) : t.hasVariables = false := by
  induction d generalizing scope before places with
  | nil => cases h
  | cons st rest ih =>
    rcases List.mem_append.mp h with h | h
    · cases st with
      | facts sentence => exact hadmissible.1.2 t h
      | declare | base | rule => cases h
    · exact ih hadmissible.2 h

/-- What a document says has built rules, and facts without variables. -/
theorem built_and_ground_of_parseWith {prefixes : SortedMap String String} {text : String}
    {r : Ruleset} (h : parseWith prefixes text = .ok r) :
    (∀ rule ∈ r.rules, rule.Built) ∧ ∀ t ∈ r.facts, t.hasVariables = false := by
  obtain ⟨tokens, _, hread⟩ := tokens_of_parseWith h
  obtain ⟨d, _, hadmissible, rfl⟩ := document_of_parseTokens hread
  exact ⟨fun rule hrule => d.built_of_mem_rules hrule,
    fun t ht => Document.ground_of_mem_facts hadmissible ht⟩

end N3

/-- Through its text, a rule set comes back with its rules built anew, unless a fact holds a
variable; rules that were built, those of a document among them, are the same. A graph comes back
with its triples in order. -/
theorem text_roundTrips :
    (∀ r : Ruleset, Ruleset.ofText r.toText =
      match r.facts.find? Triple.hasVariables with
      | some fact => .error (.variableInFact fact)
      | none => .ok { r with rules := r.rules.map HornRule.normalized }) ∧
    (∀ rule : HornRule, rule.Built → rule.normalized = rule) ∧
    (∀ r : Ruleset, (∀ rule ∈ r.rules, rule.Built) → (∀ t ∈ r.facts, t.hasVariables = false) →
      Ruleset.ofText r.toText = .ok r) ∧
    (∀ prefixes text r, N3.parseWith prefixes text = .ok r → Ruleset.ofText r.toText = .ok r) ∧
    ∀ g : Graph, Graph.ofText? g.toText = some g := by
  refine ⟨Ruleset.ofText_toText, fun rule h => h.normalized_eq,
    fun r hrules hfacts => Ruleset.ofText_toText_of_built hrules hfacts, fun prefixes text r h => ?_,
    Graph.ofText?_toText⟩
  obtain ⟨hrules, hfacts⟩ := N3.built_and_ground_of_parseWith h
  exact Ruleset.ofText_toText_of_built hrules hfacts

/-- A rule that holds a blank node comes back with a variable, which is then existential. -/
theorem text_roundTrips_blank :
    Ruleset.ofText (Ruleset.toText
      { rules := [⟨"\"\\\x01", [], [⟨.iri "a", .iri "p", .blank "x"⟩], []⟩] }) =
      .ok { rules := [⟨"\"\\\x01", [], [⟨.iri "a", .iri "p", .var ⟨"_x"⟩⟩], [⟨"_x"⟩]⟩] } := by
  rw [text_roundTrips.1]
  rfl

end HornReasoner
