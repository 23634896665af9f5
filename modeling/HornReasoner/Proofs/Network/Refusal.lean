import HornReasoner.Proofs.Network.Placement
import HornReasoner.Proofs.Network.Repetition

/-! Rules that are not added.

Whether a rule is added is settled by its head, its body and the signatures that are known,
before anything is built: a plan that is found starts with a pattern, so once nodes are made
for it the rule gets its production. What is not added leaves the network as it was, and so
does a batch of which nothing is added (`addRule_refused`, `addRules_refused`). -/
namespace HornReasoner

/-- No body is reported for the fault that would be found after nodes were made. -/
theorem Registry.Faulty.message_ne {r : Registry} {body : List Triple} {fault : RuleFault}
    (h : r.Faulty body fault) : fault.message ≠ RuleFault.startsWithBuiltin.message := by
  intro heq
  have hfirst := congrArg (fun s => s.toList.head?) heq
  cases h <;> simp [RuleFault.message] at hfirst

/-- A plan does not start with a test. -/
theorem plan_ne_builtin (r : Registry) (body : List Triple) (t : Triple) (rest : List PlanStep) :
    plan r body ≠ .ok (.builtin t :: rest) := by
  intro h
  rcases (evaluable_of_plan h).starts_with_pattern with hnil | ⟨u, others, hpattern⟩
  · cases hnil
  · cases hpattern

namespace Network
variable {net net' : Network} {rule : HornRule}

/-- A rule that is decided is dropped or a duplicate, any other is added. -/
theorem decided_iff : net.Decided rule ↔ (net.compile rule).2.ids = [] := by
  refine ⟨fun h => h.compile.2, fun h => ?_⟩
  have hcompiles := net.compile_compiles rule
  generalize net.compile rule = out at h hcompiles
  cases hcompiles with
  | dropped hdropped => exact hdropped.imp And.left fun hfault => .inl ⟨_, hfault⟩
  | duplicate _ _ hfound => exact .inr (.inr (Option.isSome_iff_exists.mpr ⟨_, hfound⟩))
  | truth | conditional => cases h

/-- What is decided is answered at once and leaves the network as it was. -/
theorem Decided.addRule (h : net.Decided rule) (budget : Nat) :
    net.addRule budget rule = some (net, (net.compile rule).2) := by
  obtain ⟨hnet, hids⟩ := h.compile
  have hout : net.compile rule = (net, (net.compile rule).2) := Prod.ext hnet rfl
  rw [Network.addRule, hout]
  cases houtcome : (net.compile rule).2 with
  | added id =>
    rw [houtcome] at hids
    cases hids
  | duplicate id | dropped diagnostic => rfl

/-- The outcome is that of compiling the rule. -/
theorem addRule_outcome {budget : Nat} {outcome : RuleOutcome}
    (h : net.addRule budget rule = some (net', outcome)) : outcome = (net.compile rule).2 := by
  unfold addRule at h
  cases hout : net.compile rule with
  | mk compiled found =>
    rw [hout] at h
    cases found with
    | added id =>
      obtain ⟨_, _, heq⟩ := Option.map_eq_some_iff.mp h
      cases heq
      rfl
    | duplicate id | dropped diagnostic =>
      cases h
      rfl

/-- Whatever is not added is what compiling found, in the network as it was. -/
theorem addRule_eq_refused_iff {budget : Nat} {outcome : RuleOutcome} (hnot : outcome.ids = []) :
    net.addRule budget rule = some (net', outcome) ↔
      net' = net ∧ (net.compile rule).2 = outcome := by
  constructor
  · intro h
    obtain rfl := addRule_outcome h
    rw [(decided_iff.mpr hnot).addRule] at h
    cases h
    exact ⟨rfl, rfl⟩
  · rintro ⟨rfl, rfl⟩
    exact (decided_iff.mpr hnot).addRule budget

theorem exists_refused_iff {α : Type} {budget : Nat} {outcome : α → RuleOutcome}
    (hnot : ∀ x, (outcome x).ids = []) :
    (∃ net' x, net.addRule budget rule = some (net', outcome x)) ↔
      ∃ x, (net.compile rule).2 = outcome x := by
  simp only [addRule_eq_refused_iff (hnot _)]
  exact ⟨fun ⟨_, x, _, hx⟩ => ⟨x, hx⟩, fun ⟨x, hx⟩ => ⟨net, x, rfl, hx⟩⟩

/-- Compiling drops a rule without a head or without a plan. -/
theorem dropped_compile_iff : (∃ diagnostic, (net.compile rule).2 = .dropped diagnostic) ↔
    rule.head = [] ∨ ¬net.builtins.Plannable rule.body := by
  rw [← exists_plan_iff]
  have hcompiles := net.compile_compiles rule
  generalize net.compile rule = out at hcompiles
  cases hcompiles with
  | @dropped fault hdropped =>
    refine iff_of_true ⟨_, rfl⟩ (hdropped.imp And.left ?_)
    rintro hfault ⟨steps, hplan⟩
    cases hfault.symm.trans hplan
  | duplicate hhead hplan _ | truth hhead hplan _ | conditional hhead hplan _ _ _ =>
    refine iff_of_false ?_ ?_
    · rintro ⟨_, ⟨⟩⟩
    · exact not_or.mpr ⟨hhead, not_not_intro ⟨_, hplan⟩⟩

/-- Compiling finds a duplicate of any other rule whose signature is known. -/
theorem duplicate_compile_iff : (∃ id, (net.compile rule).2 = .duplicate id) ↔
    rule.head ≠ [] ∧ net.builtins.Plannable rule.body ∧
      (net.signatureIndex.lookup (.of rule)).isSome := by
  rw [← exists_plan_iff]
  have hcompiles := net.compile_compiles rule
  generalize net.compile rule = out at hcompiles
  cases hcompiles with
  | @dropped fault hdropped =>
    refine iff_of_false ?_ ?_
    · rintro ⟨_, ⟨⟩⟩
    · rintro ⟨hhead, ⟨steps, hplan⟩, -⟩
      rcases hdropped with ⟨hnil, -⟩ | hfault
      · exact hhead hnil
      · cases hfault.symm.trans hplan
  | duplicate hhead hplan hfound =>
    exact iff_of_true ⟨_, rfl⟩ ⟨hhead, ⟨_, hplan⟩, Option.isSome_iff_exists.mpr ⟨_, hfound⟩⟩
  | truth _ _ hnew | conditional _ _ hnew _ _ =>
    refine iff_of_false ?_ ?_
    · rintro ⟨_, ⟨⟩⟩
    · simp [hnew]

/-- The fault that would be found after nodes were made is never reported. -/
theorem compile_ne_startsWithBuiltin :
    (net.compile rule).2 ≠ .dropped ⟨rule.label, RuleFault.startsWithBuiltin.message⟩ := by
  have hcompiles := net.compile_compiles rule
  generalize net.compile rule = out at hcompiles
  cases hcompiles with
  | dropped hdropped =>
    simp only [ne_eq, RuleOutcome.dropped.injEq, Diagnostic.mk.injEq, true_and]
    rcases hdropped with ⟨-, rfl⟩ | hfault
    · decide
    · exact (faulty_of_plan hfault).message_ne
  | duplicate | truth | conditional => simp

/-- **A rule that is not added leaves the network as it was**, and no rule is dropped after
nodes were made for it. -/
theorem addRule_refused (net : Network) (rule : HornRule) (budget : Nat) :
    (∀ net' outcome, net.addRule budget rule = some (net', outcome) →
      (∀ id, outcome ≠ .added id) → net' = net) ∧
    ((∃ net' diagnostic, net.addRule budget rule = some (net', .dropped diagnostic)) ↔
      rule.head = [] ∨ ¬net.builtins.Plannable rule.body) ∧
    ((∃ net' id, net.addRule budget rule = some (net', .duplicate id)) ↔
      rule.head ≠ [] ∧ net.builtins.Plannable rule.body ∧
        (net.signatureIndex.lookup (.of rule)).isSome) ∧
    (∀ net', net.addRule budget rule ≠
      some (net', .dropped ⟨rule.label, RuleFault.startsWithBuiltin.message⟩)) ∧
    ∀ t rest, plan net.builtins rule.body ≠ .ok (.builtin t :: rest) := by
  refine ⟨fun net' outcome h hnot => ?_, ?_, ?_, fun net' h => ?_, plan_ne_builtin _ _⟩
  · have hids : outcome.ids = [] := by
      cases outcome with
      | added id => exact absurd rfl (hnot id)
      | duplicate id | dropped diagnostic => rfl
    exact ((addRule_eq_refused_iff hids).mp h).1
  · exact (exists_refused_iff fun _ => rfl).trans dropped_compile_iff
  · exact (exists_refused_iff fun _ => rfl).trans duplicate_compile_iff
  · exact compile_ne_startsWithBuiltin (addRule_outcome h).symm

/-- A rule whose only condition is a test of a variable. -/
def testOnly : HornRule where
  label := "open"
  body := [⟨.var ⟨"x"⟩, .iri "differs", .iri "a"⟩]
  head := [⟨.var ⟨"x"⟩, .iri "p", .iri "a"⟩]

/-- It is dropped, and nothing else happens. -/
theorem addRule_refused_of_testOnly : ∃ diagnostic,
    (Network.new inequality {}).addRule 0 testOnly =
      some (Network.new inequality {}, .dropped diagnostic) := by
  obtain ⟨hsame, hdropped, -⟩ := addRule_refused (Network.new inequality {}) testOnly 0
  obtain ⟨net', diagnostic, h⟩ := hdropped.mpr (.inr fun h => absurd h.bound (by decide +kernel))
  rw [hsame net' _ h (by simp)] at h
  exact ⟨diagnostic, h⟩

/-! ### Batches -/

/-- Compiling a batch adds to the report. -/
theorem added_compileAll (net : Network) (report : BuildReport) (rules : List HornRule) :
    report.added <+: (net.compileAll report rules).2.added := by
  induction rules generalizing net report with
  | nil => exact List.prefix_rfl
  | cons rule rest ih =>
    have hrest := ih (net.compile rule).1 (report.record (net.compile rule).2)
    rw [BuildReport.added_record] at hrest
    exact (List.prefix_append _ _).trans hrest

theorem compileAll_refused (report : BuildReport) {rules : List HornRule}
    (h : (net.compileAll report rules).2.added = report.added) :
    (net.compileAll report rules).1 = net := by
  induction rules generalizing report with
  | nil => rfl
  | cons rule rest ih =>
    rw [compileAll] at h ⊢
    dsimp only at h ⊢
    have hids : (net.compile rule).2.ids = [] := by
      have hprefix := added_compileAll (net.compile rule).1 (report.record (net.compile rule).2) rest
      rw [h, BuildReport.added_record] at hprefix
      have hle := hprefix.length_le
      rw [List.length_append] at hle
      exact List.eq_nil_of_length_eq_zero (by omega)
    rw [(decided_iff.mpr hids).compile.1] at h ⊢
    refine ih _ (h.trans ?_)
    rw [BuildReport.added_record, hids, List.append_nil]

/-- **A batch of which nothing is added leaves the network as it was.** -/
theorem addRules_refused {budget : Nat} {rules : List HornRule} {report : BuildReport}
    (h : net.addRules budget rules = some (net', report)) (hnone : report.added = []) :
    net' = net := by
  obtain ⟨final, hfinal, heq⟩ := Option.map_eq_some_iff.mp h
  cases heq
  rw [hnone, compileAll_refused _ hnone] at hfinal
  exact (Option.some.inj hfinal).symm

end Network

end HornReasoner
