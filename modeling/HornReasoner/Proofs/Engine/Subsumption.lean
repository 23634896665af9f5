import HornReasoner.Proofs.Engine.Closure
import HornReasoner.Proofs.Json.RoundTrip
import HornReasoner.Proofs.Network.Interpretation
import HornReasoner.Proofs.Network.Repetition
import HornReasoner.Proofs.Ontology.Subsumption

/-! Inclusions and members.

The axioms of an ontology are compiled once, before anything is inferred. So a closure without a
diagnostic has the members of a class in all classes that a chain of the ontology's own inclusions
leads to (`Engine.members_of_inclusions`). If no rule of the ontology concludes an inclusion, these
are all classes in which the closure includes it; otherwise not (`Engine.inclusion_without_members`). -/
namespace HornReasoner

open Network Ontology

/-! ### The supplement -/

/-- The classes of which rules of the supplement conclude members. -/
def characteristics : List Term :=
  [.iri Vocabulary.Owl.functionalProperty, .iri Vocabulary.Owl.inverseFunctionalProperty,
    .iri Vocabulary.Owl.symmetricProperty]

/-- The rule has a head and no tests, concludes inclusions only from others, and members of
property characteristics only. -/
def HornRule.IsSupplementary (rule : HornRule) : Prop :=
  rule.head ≠ [] ∧
    (∀ atom ∈ rule.body, ∀ iri ∈ atom.predicate.iri?, iri ∉ Builtin.standard.map Prod.fst) ∧
    ((rule.body, rule.head) ∈ inclusionRules ∨ rule.StatesNoInclusion) ∧
    ∀ atom ∈ rule.head, atom.predicate.isGround = true ∧
      (atom.predicate = .iri Vocabulary.Rdf.type → atom.object ∈ characteristics)

instance (rule : HornRule) : Decidable rule.IsSupplementary :=
  inferInstanceAs (Decidable (_ ∧ _ ∧ _ ∧ _))

/-- Whatever the values, it concludes members of property characteristics only. -/
theorem HornRule.IsSupplementary.object_mem {rule : HornRule} (h : rule.IsSupplementary)
    {atom : Triple} (hatom : atom ∈ rule.head) {τ : Variable → Term}
    (htype : (atom.assign τ).predicate = .iri Vocabulary.Rdf.type) :
    (atom.assign τ).object ∈ characteristics := by
  obtain ⟨_, _, _, hheads⟩ := h
  obtain ⟨hpredicate, hobject⟩ := hheads atom hatom
  have hmem := hobject ((Term.assign_of_isGround hpredicate).symm.trans htype)
  have hground : ∀ u ∈ characteristics, u.isGround = true := by decide
  show atom.object.assign τ ∈ characteristics
  rwa [Term.assign_of_isGround (hground _ hmem)]

set_option maxRecDepth 20000 in
theorem supplement_isSupplementary : ∃ r, supplement = .ok r ∧
    ∀ rule ∈ r.rules, rule.Built ∧ rule.IsSupplementary := by
  obtain ⟨r, hr, hall⟩ := supplement_of_chars (P := fun r => r.rules.all fun rule =>
    decide rule.IsSupplementary) String.toList_ofList (by decide +kernel)
  have hparsed := hr
  rw [supplement, N3.parse] at hparsed
  obtain ⟨hbuilt, _⟩ := N3.built_and_ground_of_parseWith hparsed
  exact ⟨r, hr, fun rule hrule =>
    ⟨hbuilt rule hrule, of_decide_eq_true (List.all_eq_true.mp hall rule hrule)⟩⟩

namespace Engine

variable {g : Graph} {drawn : String} {budget : Nat} {e : Engine} {report : ClosureReport}
  {r : Ruleset} {stop : Readings}

/-! ### Closures without a diagnostic -/

/-- The calls that a closure makes. -/
theorem calls_of_computeClosure (hr : supplement = .ok r)
    (h : (Engine.new {} drawn).computeClosure budget g stop = some (e, .ok report)) :
    ∃ first supplied second axioms net counted,
      (Network.new .standard {} drawn).addRules budget r.rules = some (first, supplied) ∧
      first.addRules budget (compile g).rules = some (second, axioms) ∧
      second.feed budget g.toList stop = some (net, .ok counted) ∧ e.network = net ∧
      report.diagnostics = supplied.dropped ++ (compile g).diagnostics ++ axioms.dropped := by
  rw [computeClosure_new hr] at h
  obtain ⟨⟨first, supplied⟩, hfirst, h⟩ := Option.bind_eq_some_iff.mp h
  obtain ⟨⟨second, axioms⟩, hsecond, h⟩ := Option.bind_eq_some_iff.mp h
  obtain ⟨⟨net, fed⟩, hfeed, heq⟩ := Option.map_eq_some_iff.mp h
  obtain ⟨rfl, hresult⟩ := Prod.mk.inj heq
  cases fed with
  | error fault => cases hresult
  | ok counted =>
    obtain rfl := Except.ok.inj hresult
    exact ⟨first, supplied, second, axioms, net, counted, hfirst, hsecond, hfeed, rfl, rfl⟩

/-- Without a diagnostic the network has all rules and all triples. -/
theorem computeClosure_silent (hr : supplement = .ok r)
    (h : (Engine.new {} drawn).computeClosure budget g stop = some (e, .ok report))
    (hsilent : report.diagnostics = []) : (compile g).diagnostics = [] ∧
      VariableFree {t | t ∈ g.toList} ∧ ∃ ledger, History .standard {} e.network ledger ∧
        ledger.rules = r.rules ++ (compile g).rules ∧ ledger.facts = g.toList := by
  obtain ⟨first, supplied, second, axioms, net, counted, hfirst, hsecond, hfeed, rfl, hdiagnostics⟩ :=
    calls_of_computeClosure hr h
  rw [hsilent, eq_comm, List.append_eq_nil_iff, List.append_eq_nil_iff] at hdiagnostics
  obtain ⟨⟨hsupplied, hcompiled⟩, haxioms⟩ := hdiagnostics
  obtain ⟨hfree, -⟩ := feed_eq_ok_iff.mp hfeed
  have hrules := (History.new.addRules hfirst).addRules hsecond
  refine ⟨hcompiled, hfree, _, hrules.feed hfeed, ?_, rfl⟩
  refine (Ledger.rules_after_of_dropped_eq_nil _ hsecond haxioms).trans ?_
  rw [Ledger.rules_after_of_dropped_eq_nil _ hfirst hsupplied]
  rfl

/-- A closure has no diagnostic if the ontology is compiled without one and all rules have heads
and plans. -/
theorem diagnostics_eq_nil (hr : supplement = .ok r)
    (h : (Engine.new {} drawn).computeClosure budget g stop = some (e, .ok report))
    (hcompiled : (compile g).diagnostics = []) (hrules : ∀ rule ∈ r.rules ++ (compile g).rules,
      rule.head ≠ [] ∧ ∃ steps, plan .standard rule.body = .ok steps) : report.diagnostics = [] := by
  obtain ⟨hsupplement, haxioms⟩ := List.forall_mem_append.mp hrules
  obtain ⟨first, supplied, second, axioms, net, counted, hfirst, hsecond, _, _, hdiagnostics⟩ :=
    calls_of_computeClosure hr h
  have hnew : History .standard {} (Network.new .standard {} drawn) {} := .new
  rw [hdiagnostics, hnew.dropped_eq_nil hfirst hsupplement, hcompiled,
    (hnew.addRules hfirst).dropped_eq_nil hsecond haxioms]
  rfl

theorem compile_built (g : Graph) : ∀ rule ∈ (compile g).rules, rule.Built := by
  intro rule hrule
  rw [compile_rules] at hrule
  obtain ⟨c, _, hrule⟩ := List.mem_flatMap.mp hrule
  obtain ⟨label, head, body, _, rfl⟩ := Clause.mem_normalize_rules hrule
  exact ⟨label, body, head, rfl⟩

/-- The rules of a closure are built. -/
theorem built_of_isSupplementary (hsupplement : ∀ rule ∈ r.rules, rule.Built ∧ rule.IsSupplementary) :
    ∀ rule ∈ r.rules ++ (compile g).rules, rule.Built :=
  List.forall_mem_append.mpr ⟨fun rule hrule => (hsupplement rule hrule).1, compile_built g⟩

/-- Without existential variables and tests in its rules, an ontology that is compiled without a
diagnostic has a closure without one. -/
theorem exists_silent_closure (hg : VariableFree {t | t ∈ g.toList})
    (hcompiled : (compile g).diagnostics = []) (hrules : ∀ rule ∈ (compile g).rules,
      rule.existentials = [] ∧ rule.head ≠ [] ∧
        ∀ atom ∈ rule.body, Registry.standard.isTest atom = false) :
    ∃ budget e report, Engine.new.computeClosure budget g = some (e, .ok report) ∧
      report.diagnostics = [] := by
  obtain ⟨r, hr, hsupplement⟩ := supplement_isSupplementary
  obtain ⟨e, report, _, hends, _⟩ := exists_closure hg (fun rule hrule => (hrules rule hrule).1) "sk"
  obtain ⟨budget, h⟩ := hends.exists_budget
  refine ⟨budget, e, report, h, diagnostics_eq_nil hr h hcompiled ?_⟩
  have hplanned : ∀ rule : HornRule, (∀ atom ∈ rule.body, Registry.standard.isTest atom = false) →
      ∃ steps, plan .standard rule.body = .ok steps := fun _ hbody => ⟨_, plan_of_not_isTest hbody⟩
  refine List.forall_mem_append.mpr ⟨fun rule hrule => ?_, fun rule hrule => ?_⟩
  · obtain ⟨_, hhead, hmatched, _⟩ := hsupplement rule hrule
    exact ⟨hhead, hplanned rule fun atom hatom => Registry.standard_isTest (hmatched atom hatom)⟩
  · obtain ⟨_, hhead, hbody⟩ := hrules rule hrule
    exact ⟨hhead, hplanned rule hbody⟩

/-! ### Inclusions -/

/-- Where no rule of the ontology concludes an inclusion of classes, all of them follow from those
that it states. -/
theorem traced_closure {net : Network} {ledger : Ledger} (h : History .standard {} net ledger)
    (hledger : ledger.rules = r.rules ++ (compile g).rules) (hfacts : ledger.facts = g.toList)
    (hsupplement : ∀ rule ∈ r.rules, rule.Built ∧ rule.IsSupplementary)
    (hrules : ∀ rule ∈ (compile g).rules, rule.StatesNoInclusion) :
    ∀ t ∈ net.workingMemory.toList, Traced g t := by
  refine h.forall_facts (hledger ▸ built_of_isSupplementary hsupplement)
    (fun t ht => traced_of_mem (hfacts ▸ ht)) fun rule hrule τ hblank hbody => ?_
  rw [hledger] at hrule
  rcases List.mem_append.mp hrule with hrule | hrule
  · obtain ⟨_, _, hmatched, hinclusions, _⟩ := hsupplement rule hrule
    rcases hinclusions with hinclusion | hnone
    · refine traced_of_inclusionRules hinclusion fun atom hatom => hbody atom ?_
      have hpattern := Registry.standard_isTest (hmatched atom hatom)
      exact List.mem_filter.mpr ⟨hatom, by simp [hpattern]⟩
    · exact fun atom hatom => traced_of_statesNoInclusion hnone hblank hatom
  · exact fun atom hatom => traced_of_statesNoInclusion (hrules rule hrule) hblank hatom

/-- **Members of included classes.** If a closure has no diagnostic, and the rules of the ontology
have no tests and no two conditions with a blank node in common, then the members of a class are
members of all classes that a chain of the ontology's own inclusions leads to. If no rule of the
ontology concludes an inclusion, they are members of all classes in which the closure includes
it. -/
theorem members_of_inclusions
    (h : (Engine.new {} drawn).computeClosure budget g stop = some (e, .ok report))
    (hsilent : report.diagnostics = []) (hplain : ∀ rule ∈ (compile g).rules,
      rule.Separate ∧ ∀ atom ∈ rule.body, Registry.standard.isTest atom = false) :
    (∀ (C D : String) (t : Term), D ≠ Vocabulary.Owl.thing → D ≠ Vocabulary.Owl.nothing →
      Relation.ReflTransGen (Linked g) (.iri C) (.iri D) →
      ⟨t, .iri Vocabulary.Rdf.type, .iri C⟩ ∈ e.closure.toList →
      ⟨t, .iri Vocabulary.Rdf.type, .iri D⟩ ∈ e.closure.toList) ∧
    ((∀ rule ∈ (compile g).rules, rule.StatesNoInclusion) →
      ∀ (C D : String) (t : Term), D ≠ Vocabulary.Owl.thing → D ≠ Vocabulary.Owl.nothing →
        ⟨.iri C, .iri Vocabulary.Rdfs.subClassOf, .iri D⟩ ∈ e.closure.toList →
        ⟨t, .iri Vocabulary.Rdf.type, .iri C⟩ ∈ e.closure.toList →
        ⟨t, .iri Vocabulary.Rdf.type, .iri D⟩ ∈ e.closure.toList) := by
  obtain ⟨r, hr, hsupplement⟩ := supplement_isSupplementary
  obtain ⟨hcompiled, hg, ledger, hhistory, hledger, hfed⟩ := computeClosure_silent hr h hsilent
  have hbuilt : ∀ rule ∈ ledger.rules, rule.Built := hledger ▸ built_of_isSupplementary hsupplement
  have hfacts := hhistory.variableFree
  have hmodel : ∀ rule ∈ (compile g).rules,
      rule.HoldsIn {t | t ∈ e.network.workingMemory.toList} ∧ rule.Separate :=
    fun rule hrule => ⟨hhistory.holdsIn hbuilt (hledger ▸ List.mem_append_right _ hrule)
      (hplain rule hrule).2, (hplain rule hrule).1⟩
  have hchain : ∀ (C D : String) (t : Term), D ≠ Vocabulary.Owl.thing →
      D ≠ Vocabulary.Owl.nothing → Relation.ReflTransGen (Linked g) (.iri C) (.iri D) →
      ⟨t, .iri Vocabulary.Rdf.type, .iri C⟩ ∈ e.closure.toList →
      ⟨t, .iri Vocabulary.Rdf.type, .iri D⟩ ∈ e.closure.toList := by
    intro C D t hthing hnothing hlinked hmember
    exact member_of_chain (fun u => hg.isIndividual_of_mentions) hcompiled hmodel
      (hfacts.individuals hmember).1 (unmade_of_variableFree hg) hmember hlinked hthing hnothing
  refine ⟨hchain, fun hrules C D t hthing hnothing hincluded => ?_⟩
  exact hchain C D t hthing hnothing
    ((traced_closure hhistory hledger hfed hsupplement hrules _ hincluded).1 rfl)

/-- A triple of the graph is a fact of its closure. -/
theorem mem_closure_of_mem {ledger : Ledger} (h : History .standard {} e.network ledger)
    (hfacts : ledger.facts = g.toList) {t : Triple} (ht : t ∈ g.toList) :
    t ∈ e.closure.toList := by
  obtain ⟨_, _, hrunning⟩ := h.keeps.resting.running
  exact hrunning.grounded.kept t (hfacts ▸ ht)

theorem plain_of_names (rules : List HornRule) (h : ∀ rule ∈ rules, rule.existentials = [] ∧
      rule.head ≠ [] ∧ ∀ atom ∈ rule.body, ∀ iri ∈ atom.predicate.iri?,
        iri ∉ Builtin.standard.map Prod.fst) :
    ∀ rule ∈ rules, rule.existentials = [] ∧ rule.head ≠ [] ∧
      ∀ atom ∈ rule.body, Registry.standard.isTest atom = false := by
  intro rule hrule
  obtain ⟨hnone, hhead, hnames⟩ := h rule hrule
  exact ⟨hnone, hhead, fun atom hatom => Registry.standard_isTest (hnames atom hatom)⟩

/-- Those of `A` have `v` as a `p`, the `D`s are those that have it, all of them are `E`s, and `i` is
one of `A`. -/
def included : Graph := .ofList
  [⟨.iri "A", .iri Vocabulary.Rdfs.subClassOf, .blank "r"⟩,
   ⟨.iri "D", .iri Vocabulary.Owl.equivalentClass, .blank "r"⟩,
   ⟨.blank "r", .iri Vocabulary.Owl.onProperty, .iri "p"⟩,
   ⟨.blank "r", .iri Vocabulary.Owl.hasValue, .iri "v"⟩,
   ⟨.iri "D", .iri Vocabulary.Rdfs.subClassOf, .iri "E"⟩,
   ⟨.iri "i", .iri Vocabulary.Rdf.type, .iri "A"⟩]

def includedRules : List HornRule :=
  let isA (c : String) : Triple := ⟨x, .iri Vocabulary.Rdf.type, .iri c⟩
  let hasV : Triple := ⟨x, .iri "p", .iri "v"⟩
  [⟨"subClassOf(<A>, _:r)", [isA "A"], [hasV], []⟩, ⟨"subClassOf(<D>, <E>)", [isA "D"], [isA "E"], []⟩,
   ⟨"equivalentClass(<D>, _:r)", [isA "D"], [hasV], []⟩,
   ⟨"equivalentClass(_:r, <D>)", [hasV], [isA "D"], []⟩]

theorem included_rules : (compile included).rules = includedRules := by
  decide +kernel

theorem members_of_inclusions_of_included : ∃ budget e report,
    Engine.new.computeClosure budget included = some (e, .ok report) ∧ report.diagnostics = [] ∧
      (compile included).rules = includedRules ∧ (∀ rule ∈ includedRules,
        (rule.Separate ∧ ∀ atom ∈ rule.body, Registry.standard.isTest atom = false) ∧
          rule.StatesNoInclusion) ∧
      Linked included (.iri "A") (.blank "r") ∧ Linked included (.blank "r") (.iri "D") ∧
      ⟨.iri "i", .iri Vocabulary.Rdf.type, .iri "D"⟩ ∈ e.closure.toList ∧
      ⟨.iri "D", .iri Vocabulary.Rdfs.subClassOf, .iri "E"⟩ ∈ e.closure.toList ∧
      ⟨.iri "i", .iri Vocabulary.Rdf.type, .iri "E"⟩ ∈ e.closure.toList := by
  have hfree : ∀ t ∈ included.toList, t.hasVariables = false := by decide +kernel
  have hplain := plain_of_names includedRules (by decide +kernel)
  have hone : ∀ rule ∈ includedRules, rule.body.length = 1 := by decide
  have hnone : ∀ rule ∈ includedRules, rule.StatesNoInclusion := by decide
  obtain ⟨budget, e, report, h, hsilent⟩ :=
    exists_silent_closure hfree (by decide +kernel) (included_rules ▸ hplain)
  have hrules : ∀ rule ∈ includedRules,
      rule.Separate ∧ ∀ atom ∈ rule.body, Registry.standard.isTest atom = false :=
    fun rule hrule => ⟨HornRule.separate_of_length (hone rule hrule), (hplain rule hrule).2.2⟩
  obtain ⟨hchain, hclosure⟩ := members_of_inclusions h hsilent (included_rules ▸ hrules)
  obtain ⟨r, hr, _⟩ := supplement_isSupplementary
  obtain ⟨_, _, _, hhistory, _, hfed⟩ := computeClosure_silent hr h hsilent
  have hkept : ∀ t ∈ included.toList, t ∈ e.closure.toList :=
    fun t ht => mem_closure_of_mem hhistory hfed ht
  have hto : Linked included (.iri "A") (.blank "r") := .inl (by decide +kernel)
  have hfrom : Linked included (.blank "r") (.iri "D") := .inr (.inr (by decide +kernel))
  have hd := hchain "A" "D" (.iri "i") (by decide) (by decide) (.tail (.single hto) hfrom)
    (hkept _ (by decide +kernel))
  have hincluded := hkept ⟨.iri "D", .iri Vocabulary.Rdfs.subClassOf, .iri "E"⟩ (by decide +kernel)
  exact ⟨budget, e, report, h, hsilent, included_rules,
    fun rule hrule => ⟨hrules rule hrule, hnone rule hrule⟩, hto, hfrom, hd, hincluded,
    hclosure (included_rules ▸ hnone) "D" "E" (.iri "i") (by decide) (by decide) hincluded hd⟩

/-- `sup` relates a class to those included in it, `A` is included in `B` this way, and `i` is one of
`A`. -/
def inverted : Graph := .ofList
  [⟨.iri "sup", .iri Vocabulary.Owl.inverseOf, .iri Vocabulary.Rdfs.subClassOf⟩,
   ⟨.iri "B", .iri "sup", .iri "A"⟩, ⟨.iri "i", .iri Vocabulary.Rdf.type, .iri "A"⟩]

/-- An inclusion is the inverse of `sup`. -/
def invertedRule : HornRule where
  label := "inverseOf(<sup>, rdfs:subClassOf)"
  body := [⟨y, .iri "sup", x⟩]
  head := [⟨x, .iri Vocabulary.Rdfs.subClassOf, y⟩]

def invertedRules : List HornRule :=
  [invertedRule, { invertedRule with body := invertedRule.head, head := invertedRule.body }]

theorem inverted_rules : (compile inverted).rules = invertedRules := by
  decide +kernel

/-- **An inclusion that is inferred has no rule**, so members of `A` do not become members of `B`. -/
theorem inclusion_without_members : ∃ budget e report,
    Engine.new.computeClosure budget inverted = some (e, .ok report) ∧ report.diagnostics = [] ∧
      ⟨.iri "A", .iri Vocabulary.Rdfs.subClassOf, .iri "B"⟩ ∈ e.closure.toList ∧
      ⟨.iri "i", .iri Vocabulary.Rdf.type, .iri "A"⟩ ∈ e.closure.toList ∧
      ⟨.iri "i", .iri Vocabulary.Rdf.type, .iri "B"⟩ ∉ e.closure.toList := by
  have hfree : ∀ t ∈ inverted.toList, t.hasVariables = false := by decide +kernel
  have hplain := plain_of_names invertedRules (by decide +kernel)
  obtain ⟨budget, e, report, h, hsilent⟩ :=
    exists_silent_closure hfree (by decide +kernel) (inverted_rules ▸ hplain)
  obtain ⟨r, hr, hsupplement⟩ := supplement_isSupplementary
  obtain ⟨_, _, ledger, hhistory, hledger, hfacts⟩ := computeClosure_silent hr h hsilent
  have hbuilt : ∀ rule ∈ ledger.rules, rule.Built := hledger ▸ built_of_isSupplementary hsupplement
  have hkept : ∀ t ∈ inverted.toList, t ∈ e.closure.toList :=
    fun t ht => mem_closure_of_mem hhistory hfacts ht
  have hrule : invertedRule ∈ (compile inverted).rules :=
    inverted_rules ▸ List.mem_cons_self ..
  refine ⟨budget, e, report, h, hsilent, ?_, hkept _ (by decide +kernel), fun hmember => ?_⟩
  · obtain ⟨τ, _, hagree, hall⟩ := hhistory.holdsIn hbuilt
      (hledger ▸ List.mem_append_right _ hrule)
      (hplain _ (List.mem_cons_self ..)).2.2 (fun v => if v = ⟨"x"⟩ then .iri "A" else .iri "B")
      (fun v => by split <;> rfl)
      (List.forall_mem_singleton.mpr (hkept ⟨.iri "B", .iri "sup", .iri "A"⟩ (by decide +kernel)))
    have hsub : τ ⟨"x"⟩ = .iri "A" := hagree _ List.not_mem_nil
    have hsup : τ ⟨"y"⟩ = .iri "B" := hagree _ List.not_mem_nil
    have hincluded : ⟨τ ⟨"x"⟩, .iri Vocabulary.Rdfs.subClassOf, τ ⟨"y"⟩⟩ ∈ e.closure.toList :=
      hall _ (List.mem_singleton_self _)
    rwa [hsub, hsup] at hincluded
  · have hfed : ∀ t ∈ ledger.facts, t ≠ ⟨.iri "i", .iri Vocabulary.Rdf.type, .iri "B"⟩ := by
      rw [hfacts]
      decide +kernel
    have hheads : ∀ rule ∈ invertedRules, ∀ atom ∈ rule.head, atom.predicate.isGround = true ∧
        atom.predicate ≠ .iri Vocabulary.Rdf.type := by decide
    refine hhistory.forall_facts hbuilt hfed (fun rule hrule τ _ _ atom hatom heq => ?_) _ hmember rfl
    rw [hledger] at hrule
    have htype : (atom.assign τ).predicate = .iri Vocabulary.Rdf.type := congrArg Triple.predicate heq
    rcases List.mem_append.mp hrule with hrule | hrule
    · have hobject := (hsupplement rule hrule).2.object_mem hatom htype
      rw [heq] at hobject
      exact absurd hobject (by decide)
    · obtain ⟨hground, hne⟩ := hheads rule (inverted_rules ▸ hrule) atom hatom
      exact hne ((Term.assign_of_isGround hground).symm.trans htype)

end Engine

end HornReasoner
