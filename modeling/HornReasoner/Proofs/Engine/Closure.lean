import HornReasoner.Engine.Basic
import HornReasoner.Proofs.Network.Cancellation
import HornReasoner.Proofs.Network.Divergence
import HornReasoner.Proofs.Network.Termination
import HornReasoner.Proofs.Ontology.Compilation
import HornReasoner.Proofs.Ontology.Supplement

/-! The closure of an ontology.

A new engine adds the supplement to its network, then the rules of the ontology, and feeds the
ontology's triples (`Engine.computeClosure_new`). Without existential variables each of the three
calls ends (`Engine.computeClosure_ends`). With one that its own conclusions lead back to, no
budget is enough (`Engine.blankValue_diverges`). -/
namespace HornReasoner

open Network

/-! ### Rules without existential variables -/

section Datalog
variable {builtins : Registry} {options : NetworkOptions} {net : Network} {ledger : Ledger}

theorem History.datalog (h : History builtins options net ledger)
    (hrules : ∀ rule ∈ ledger.rules, rule.existentials = []) : net.Datalog :=
  datalog_iff.mpr fun id rule hrule => hrules rule (h.keeps.rules id rule hrule)

/-- They are added to others of the kind. -/
theorem History.addRules_ends (h : History builtins options net ledger)
    (hledger : ∀ rule ∈ ledger.rules, rule.existentials = []) {rules : List HornRule}
    (hrules : ∀ rule ∈ rules, rule.existentials = []) :
    ∃ e ledger', Ends (fun budget => net.addRules budget rules) e ∧
      History builtins options e.1 ledger' ∧ ∀ rule ∈ ledger'.rules, rule.existentials = [] := by
  have hresting := h.keeps.resting
  obtain ⟨_, _, hcompiled⟩ := compileAll_spec hresting.wired rules {}
  have hkept : ∀ rule ∈ net.keptRules rules, rule.existentials = [] :=
    fun rule hrule => hrules rule (keptRules_subset net rules hrule)
  obtain ⟨e, hends⟩ := hresting.addRules_ends rules (hcompiled.datalog (h.datalog hledger) hkept)
  obtain ⟨budget, hcall⟩ := hends.exists_budget
  exact ⟨e, _, hends, h.addRules hcall, List.forall_mem_append.mpr ⟨hledger, hkept⟩⟩

theorem History.blanks_eq_nil (h : History builtins options net ledger)
    (hrules : ∀ rule ∈ ledger.rules, rule.existentials = []) : net.skolem.blanks = [] := by
  obtain ⟨_, _, _, hcourse, _⟩ := h.course
  refine List.flatMap_eq_nil_iff.mpr fun e he => ?_
  obtain ⟨rule, _, _, hrule, _, _, _, hkeys⟩ := hcourse.tabled.matched e he
  rw [hrules rule (h.keeps.rules _ rule hrule), List.map_eq_nil_iff] at hkeys
  rw [hkeys, List.map_nil]

end Datalog

namespace Engine

/-! ### Three calls -/

/-- A new engine that has added the rules of the supplement and of an ontology. -/
def loaded (g : Graph) (supplement axioms : BuildReport) (network : Network) : Engine where
  options := {}
  network
  diagnostics := supplement.dropped ++ (Ontology.compile g).diagnostics ++ axioms.dropped
  supplementLoaded := true

theorem loadSupplement_new {r : Ruleset} (hr : Ontology.supplement = .ok r) (drawn : String)
    (budget : Nat) : (Engine.new {} drawn).loadSupplement budget =
      ((Network.new .standard {} drawn).addRules budget r.rules).map fun added =>
        ({ options := {}, network := added.1, diagnostics := added.2.dropped,
           supplementLoaded := true }, .ok added.2) := by
  have hload : (Engine.new {} drawn).loadSupplement budget =
      ((Engine.new {} drawn).loadRules budget r.rules).map fun added =>
        ({ added.1 with supplementLoaded := true }, .ok added.2) := by
    rw [loadSupplement, hr]
    rfl
  rw [hload, loadRules, Option.map_map]
  rfl

theorem loadOntology_new {r : Ruleset} (hr : Ontology.supplement = .ok r) (drawn : String)
    (budget : Nat) (g : Graph) : (Engine.new {} drawn).loadOntology budget g =
      ((Network.new .standard {} drawn).addRules budget r.rules).bind fun first =>
        (first.1.addRules budget (Ontology.compile g).rules).map fun second =>
          (loaded g first.2 second.2 second.1, .ok (first.2.append second.2)) := by
  simp only [loadOntology, loadSupplement_new hr, loadAxioms, loaded]
  -- named, so that `rfl` does not run the compiler
  generalize Ontology.compile g = compiled
  cases (Network.new .standard {} drawn).addRules budget r.rules with
  | none => rfl
  | some first =>
    simp only [loadRules, Option.map_some, Option.bind_some, Option.bind_eq_bind, if_true]
    cases first.1.addRules budget compiled.rules <;> rfl

theorem computeClosure_new {r : Ruleset} (hr : Ontology.supplement = .ok r) (drawn : String)
    (budget : Nat) (g : Graph) (stop : Readings) :
    (Engine.new {} drawn).computeClosure budget g stop =
      ((Network.new .standard {} drawn).addRules budget r.rules).bind fun first =>
        (first.1.addRules budget (Ontology.compile g).rules).bind fun second =>
          (second.1.feed budget g.toList stop).map fun fed =>
            let e := loaded g first.2 second.2 fed.1
            (e, (fed.2.mapError .network).map fun report => e.result report.asserted) := by
  simp only [computeClosure, loadOntology_new hr, loaded]
  generalize Ontology.compile g = compiled
  cases (Network.new .standard {} drawn).addRules budget r.rules with
  | none => rfl
  | some first =>
    simp only [Option.bind_some, Option.bind_eq_bind]
    cases first.1.addRules budget compiled.rules with
    | none => rfl
    | some second =>
      simp only [Option.map_some, Option.bind_some, feedOntology, feed, if_true]
      cases second.1.feed budget g.toList stop with
      | none => rfl
      | some fed =>
        obtain ⟨net, report⟩ := fed
        cases report <;> rfl

/-! ### Ends -/

/-- Without existential variables a closure ends, with a network that was given no others. -/
theorem exists_closure {g : Graph} (hg : VariableFree {t | t ∈ g.toList})
    (hrules : ∀ rule ∈ (Ontology.compile g).rules, rule.existentials = []) (drawn : String) :
    ∃ e report ledger,
      Ends (fun budget => (Engine.new {} drawn).computeClosure budget g) (e, .ok report) ∧
      History .standard {} e.network ledger ∧ (∀ rule ∈ ledger.rules, rule.existentials = []) ∧
      ∀ t ∈ g.toList, t ∈ ledger.facts := by
  obtain ⟨r, hr, hsupplement⟩ := Ontology.supplement_eq_ok
  have hnew : History .standard {} (Network.new .standard {} drawn) {} := .new
  obtain ⟨first, _, hfirst, hhistory, hledger⟩ :=
    hnew.addRules_ends (fun rule hrule => absurd hrule List.not_mem_nil) hsupplement
  obtain ⟨second, ledger, hsecond, hhistory, hledger⟩ := hhistory.addRules_ends hledger hrules
  obtain ⟨⟨net, result⟩, hfeed⟩ :=
    hhistory.keeps.resting.feed_ends (hhistory.datalog hledger) g.toList fun _ => false
  obtain ⟨budget, hcall⟩ := hfeed.exists_budget
  obtain ⟨report, rfl⟩ := feed_ok hg (fun _ _ => rfl) hcall
  let e := loaded g first.2 second.2 net
  refine ⟨e, e.result report.asserted, _, ?_, hhistory.feed hcall, hledger,
    fun t ht => List.mem_append_right _ ht⟩
  simp only [computeClosure_new hr]
  exact hfirst.bind (hsecond.bind (hfeed.map _))

/-- **The closure of an ontology whose rules have no existential variables ends.** The ontology's
triples are facts, nothing is left to do, and no blank node was minted. -/
theorem computeClosure_ends {g : Graph} (hg : VariableFree {t | t ∈ g.toList})
    (hrules : ∀ rule ∈ (Ontology.compile g).rules, rule.existentials = []) (drawn : String) :
    ∃ e report,
      Ends (fun budget => (Engine.new {} drawn).computeClosure budget g) (e, .ok report) ∧
      (∀ t ∈ g.toList, t ∈ e.closure.toList) ∧ e.network.agenda = [] ∧
      e.network.skolem.blanks = [] := by
  obtain ⟨e, report, ledger, hends, hhistory, hledger, hfacts⟩ := exists_closure hg hrules drawn
  have hresting := hhistory.keeps.resting
  obtain ⟨_, _, hrunning⟩ := hresting.running
  exact ⟨e, report, hends, fun t ht => hrunning.grounded.kept t (hfacts t ht), hresting.idle,
    hhistory.blanks_eq_nil hledger⟩

theorem computeClosure_ends_of_onlyB :
    (Ontology.compile Ontology.onlyB).rules = [Ontology.onlyBRule] ∧ ∃ e report,
      Ends (fun budget => Engine.new.computeClosure budget Ontology.onlyB) (e, .ok report) ∧
        (∀ t ∈ Ontology.onlyB.toList, t ∈ e.closure.toList) ∧ e.network.agenda = [] ∧
        e.network.skolem.blanks = [] := by
  refine ⟨Ontology.onlyB_rules, computeClosure_ends Ontology.onlyB_variableFree
    (fun rule hrule => ?_) "sk"⟩
  rw [Ontology.onlyB_rules] at hrule
  rw [List.mem_singleton.mp hrule]
  rfl

/-! ### Does not end -/

/-- What a closure leaves: the rules of both sources, in turn, and the triples as facts. -/
theorem computeClosure_spec {r : Ruleset} (hr : Ontology.supplement = .ok r) {drawn : String}
    {budget : Nat} {g : Graph} (hg : VariableFree {t | t ∈ g.toList}) {e : Engine}
    {result : Except EngineError ClosureReport}
    (h : (Engine.new {} drawn).computeClosure budget g = some (e, result)) :
    ∃ ledger, History .standard {} e.network ledger ∧
      e.network.rulebook =
        (r.rules ++ (Ontology.compile g).rules).foldl Rulebook.add ⟨.standard, [], []⟩ ∧
      ∀ t ∈ g.toList, t ∈ e.network.workingMemory.toList := by
  rw [computeClosure_new hr] at h
  obtain ⟨first, hfirst, h⟩ := Option.bind_eq_some_iff.mp h
  obtain ⟨second, hsecond, h⟩ := Option.bind_eq_some_iff.mp h
  obtain ⟨⟨net, fed⟩, hfeed, heq⟩ := Option.map_eq_some_iff.mp h
  cases heq
  have hnew : History .standard {} (Network.new .standard {} drawn) {} := .new
  have hrules := hnew.addRules hfirst
  have hall := hrules.addRules hsecond
  obtain ⟨report, rfl⟩ := feed_ok hg (fun _ _ => rfl) hfeed
  have hfed := hall.feed hfeed
  obtain ⟨_, _, hrunning⟩ := hfed.keeps.resting.running
  have hbook : net.rulebook = (r.rules ++ (Ontology.compile g).rules).foldl Rulebook.add
      (Network.new .standard {} drawn).rulebook := by
    rw [List.foldl_append, hall.keeps.resting.rulebook_feed hfeed,
      hrules.keeps.resting.rulebook_addRules hsecond, hnew.keeps.resting.rulebook_addRules hfirst]
  exact ⟨_, hfed, hbook, fun t ht => hrunning.grounded.kept t (List.mem_append_right _ ht)⟩

section BlankValue
open Ontology

set_option maxRecDepth 20000 in
theorem supplement_signatures : ∃ r, supplement = .ok r ∧ ∀ rule ∈ r.rules,
    RuleSignature.of rule ≠ .of valueRule ∧ RuleSignature.of rule ≠ .of rangeRule := by
  obtain ⟨r, hr, hall⟩ := supplement_of_chars (P := fun r => r.rules.all fun rule =>
    decide (RuleSignature.of rule ≠ .of valueRule ∧ RuleSignature.of rule ≠ .of rangeRule))
    String.toList_ofList (by decide +kernel)
  exact ⟨r, hr, fun rule hrule => of_decide_eq_true (List.all_eq_true.mp hall rule hrule)⟩

theorem blankValue_not_isTest : ∀ rule ∈ [valueRule, rangeRule], ∀ atom ∈ rule.body,
    Registry.standard.isTest atom = false := by
  have hnames : ∀ rule ∈ [valueRule, rangeRule], ∀ atom ∈ rule.body,
      ∀ iri ∈ atom.predicate.iri?, iri ∉ Builtin.standard.map Prod.fst := by decide +kernel
  exact fun rule hrule atom hatom => Registry.standard_isTest (hnames rule hrule atom hatom)

theorem blankValue_built : ∀ rule ∈ [valueRule, rangeRule], rule.Built := by
  have hmade : ∀ rule ∈ [valueRule, rangeRule],
      rule = .ofAtoms rule.label rule.body rule.head := by decide +kernel
  exact fun rule hrule => ⟨_, _, _, hmade rule hrule⟩

/-- The network of a closure has both rules. -/
theorem blankValue_kept {r : Ruleset} (hsignatures : ∀ rule ∈ r.rules,
      RuleSignature.of rule ≠ .of valueRule ∧ RuleSignature.of rule ≠ .of rangeRule) :
    ∀ rule ∈ [valueRule, rangeRule],
      rule ∈ ((r.rules ++ [valueRule, rangeRule]).foldl Rulebook.add ⟨.standard, [], []⟩).rules := by
  have hplan : ∀ rule ∈ [valueRule, rangeRule], ∃ steps, plan .standard rule.body = .ok steps :=
    fun rule hrule => ⟨_, plan_of_not_isTest (blankValue_not_isTest rule hrule)⟩
  have hdistinct : RuleSignature.of valueRule ≠ .of rangeRule := by decide +kernel
  refine List.forall_mem_cons.mpr ⟨?_, List.forall_mem_singleton.mpr ?_⟩
  · exact Rulebook.mem_foldl_add (List.cons_ne_nil _ _) (hplan valueRule (by simp))
      (fun other hother => (hsignatures other hother).1) [rangeRule]
  · rw [List.append_cons]
    refine Rulebook.mem_foldl_add (List.cons_ne_nil _ _) (hplan rangeRule (by simp))
      (fun other hother => ?_) []
    rcases List.mem_append.mp hother with hother | hother
    · exact (hsignatures other hother).2
    · exact List.mem_singleton.mp hother ▸ hdistinct

/-- At rest every member of `A` was minted: its value is one of its own and, by the range of `p`,
a member of `A` as well. -/
theorem blankValue_mem_blanks {net : Network} {fed : List Triple} (h : net.Resting fed [])
    (horderly : net.skolem.Orderly) (hregistry : net.builtins = .standard)
    (hrules : ∀ rule ∈ [valueRule, rangeRule], ∃ id, net.rule? id = some rule) {t : Term}
    (ht : ⟨t, .iri Vocabulary.Rdf.type, .iri "A"⟩ ∈ net.workingMemory.toList) :
    t ∈ net.skolem.blanks := by
  obtain ⟨valueId, hvalueRule⟩ := hrules valueRule (by simp)
  obtain ⟨rangeId, hrangeRule⟩ := hrules rangeRule (by simp)
  have htests := blankValue_not_isTest
  rw [← hregistry] at htests
  have hback : ∀ τ : Variable → Term,
      (∀ atom ∈ valueRule.head, atom.assign τ ∈ net.workingMemory.toList) →
      ⟨τ ⟨"_b"⟩, .iri Vocabulary.Rdf.type, .iri "A"⟩ ∈ net.workingMemory.toList := by
    intro τ hhead
    obtain ⟨τ', hbody, hmember, _⟩ := h.exists_assignment hrangeRule
      (blankValue_built rangeRule (by simp))
      (fun v => if v = ⟨"y"⟩ then τ ⟨"_b"⟩ else τ v) fun atom hatom => by
        rw [htests rangeRule (by simp) atom hatom, if_neg Bool.false_ne_true,
          List.mem_singleton.mp hatom]
        exact hhead _ (List.mem_singleton_self _)
    have hvalue : τ' ⟨"y"⟩ = τ ⟨"_b"⟩ := hbody _ (List.mem_singleton_self _) ⟨"y"⟩ (by decide)
    rw [← hvalue]
    exact hmember _ (List.mem_singleton_self _)
  exact h.mem_blanks_of_loop horderly hvalueRule (blankValue_built valueRule (by simp)) rfl
    (htests valueRule (by simp) _ (List.mem_singleton_self _)) (x := ⟨"x"⟩) (z := ⟨"_b"⟩)
    (by decide) (List.mem_singleton_self _) hback t ht

/-- **The closure of an ontology can go on for ever.** `i` is a member of `A` that was fed. -/
theorem blankValue_diverges : VariableFree {t | t ∈ blankValue.toList} ∧
    ∀ drawn budget, (Engine.new {} drawn).computeClosure budget blankValue = none := by
  refine ⟨blankValue_variableFree, fun drawn budget => ?_⟩
  cases hclosure : (Engine.new {} drawn).computeClosure budget blankValue with
  | none => rfl
  | some closure =>
    obtain ⟨r, hr, hsignatures⟩ := supplement_signatures
    obtain ⟨ledger, hhistory, hbook, hfacts⟩ :=
      computeClosure_spec hr blankValue_variableFree hclosure
    have hrules : ∀ rule ∈ [valueRule, rangeRule],
        ∃ id, closure.1.network.rule? id = some rule := by
      intro rule hrule
      have hkept := blankValue_kept hsignatures rule hrule
      rw [← blankValue_rules, ← hbook] at hkept
      obtain ⟨n, hn⟩ := List.mem_iff_getElem?.mp hkept
      exact ⟨⟨n⟩, (rule?_eq_rulebook ..).trans hn⟩
    obtain ⟨_, _, _, hcourse, _⟩ := hhistory.course
    have horderly := hcourse.tabled.orderly
    have hblank := blankValue_mem_blanks (t := .iri "i") hhistory.keeps.resting horderly
      hhistory.keeps.registry hrules (hfacts _ (by decide +kernel))
    obtain ⟨n, hn⟩ := horderly.mintable hblank
    cases hn

end BlankValue

end Engine

end HornReasoner
