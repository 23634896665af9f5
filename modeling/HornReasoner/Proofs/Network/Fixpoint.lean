import HornReasoner.Proofs.Network.History
import HornReasoner.Proofs.Rule.Atoms

/-! Nothing is left to conclude.

Between calls a network is closed under its rules: a match of a body in the facts has its
blank nodes in the table, and the instances of the head are facts. In terms of assignments, one
that makes a body true extends to one that makes the head true (`Resting.exists_assignment`). And
nothing else was inferred. -/
namespace HornReasoner

namespace HornRule

/-- A variable of the head is one of the body or existential. -/
theorem Built.mem_vars {rule : HornRule} (h : rule.Built) {atom : Triple} (hatom : atom ∈ rule.head)
    {v : Variable} (hv : v ∈ atom.vars) :
    (∃ other ∈ rule.body, v ∈ other.vars) ∨ v ∈ rule.existentials := by
  by_cases hbody : v ∈ rule.body.flatMap Triple.vars
  · exact .inl (List.mem_flatMap.mp hbody)
  · right
    rw [h.existentials]
    exact mem_headOnly.mpr ⟨List.mem_flatMap.mpr ⟨atom, hatom, hv⟩, hbody⟩

/-- A body gives no value to an existential variable. -/
theorem Built.not_mem_boundVars {rule : HornRule} (h : rule.Built) {v : Variable}
    (hv : v ∈ rule.existentials) (r : Registry) : v ∉ r.boundVars rule.body := by
  intro hbound
  rw [h.existentials] at hv
  obtain ⟨atom, hatom, hvar⟩ := List.mem_flatMap.mp hbound
  exact (mem_headOnly.mp hv).2 (List.mem_flatMap.mpr ⟨atom, (List.mem_filter.mp hatom).1, hvar⟩)

/-- A match and values for the existential variables give every head pattern an instance. -/
theorem Built.exists_substitute {r : Registry} {rule : HornRule} (h : rule.Built)
    {steps : List PlanStep} (hplan : plan r rule.body = .ok steps) {support : List Triple}
    {b : Binding} (hmatch : Matches r rule.body support b) {fresh : List (Variable × Term)}
    (hfresh : fresh.map Prod.fst = rule.existentials) {atom : Triple} (hatom : atom ∈ rule.head) :
    ∃ t, atom.substitute (b.insertAllIfNew fresh) = .ok t := by
  refine Triple.exists_substitute_iff.mpr fun v hv => ?_
  rw [SortedMap.contains_insertAllIfNew, hfresh]
  refine (h.mem_vars hatom hv).imp_left ?_
  rintro ⟨other, hother, hv⟩
  exact (hmatch.domain v).mpr (vars_bound_of_plan hplan other hother v hv)

end HornRule

namespace Network

variable {net : Network} {fed : List Triple}

/-- At rest every match has its conclusions. -/
theorem Resting.held_of_matches (h : net.Resting fed []) {id : ProductionId} {rule : HornRule}
    (hrule : net.rule? id = some rule) {support : List Triple} {b : Binding}
    (hsupport : ∀ t ∈ support, t ∈ net.workingMemory.toList)
    (hmatch : Matches net.builtins rule.body support b) : net.Held id rule ⟨support, b⟩ := by
  obtain ⟨log, started, hrunning⟩ := h.running
  rcases hrunning.account.fires_of_matches hrunning.wired h.idle hrule hsupport hmatch with
    ⟨htruth, rfl, rfl⟩ | hfired
  · exact h.truths id htruth List.not_mem_nil rule hrule
  · exact hrunning.held id _ hfired rule hrule

theorem witnesses_eq_some_iff {id : ProductionId} {rule : HornRule} {support : List Triple}
    {fresh : List (Variable × Term)} : net.witnesses id rule support = some fresh ↔
      rule.existentials = [] ∧ fresh = [] ∨ rule.existentials ≠ [] ∧
        net.skolem.minted.lookup (id, Sorted.ofList support) = some fresh := by
  unfold witnesses
  by_cases hempty : rule.existentials = []
  · simp [hempty, eq_comm]
  · simp [hempty]

/-- Existential variables have their values from an entry. -/
theorem mem_minted_of_witnesses {id : ProductionId} {rule : HornRule} {support : List Triple}
    {fresh : List (Variable × Term)} (hexistentials : rule.existentials ≠ [])
    (h : net.witnesses id rule support = some fresh) :
    ((id, Sorted.ofList support), fresh) ∈ net.skolem.minted := by
  have hlookup := ((witnesses_eq_some_iff.mp h).resolve_left fun hnone => hexistentials hnone.1).2
  obtain ⟨before, after, hsplit, _⟩ := List.lookup_eq_some_iff.mp hlookup
  rw [hsplit]
  simp

/-- The table has values for just the existential variables of a rule. -/
theorem Grounded.keys (h : net.Grounded fed) {id : ProductionId} {rule : HornRule}
    (hrule : net.rule? id = some rule) {support : List Triple} {fresh : List (Variable × Term)}
    (hfresh : net.witnesses id rule support = some fresh) :
    fresh.map Prod.fst = rule.existentials := by
  rcases witnesses_eq_some_iff.mp hfresh with ⟨hempty, rfl⟩ | ⟨hexistentials, _⟩
  · exact hempty.symm
  · obtain ⟨other, hother, hkeys⟩ := h.minted _ (mem_minted_of_witnesses hexistentials hfresh)
    cases hrule.symm.trans hother
    exact hkeys

/-- At rest every assignment that makes the body true extends to one that makes the head true. The
table keeps the values of the existential variables under the facts of the body. -/
theorem Resting.exists_assignment (h : net.Resting fed []) {id : ProductionId} {rule : HornRule}
    (hrule : net.rule? id = some rule) (hbuilt : rule.Built) (σ : Variable → Term)
    (htrue : ∀ atom ∈ rule.body, if net.builtins.isTest atom = true then
      net.builtins.holds (atom.assign σ) = true else atom.assign σ ∈ net.workingMemory.toList) :
    ∃ τ : Variable → Term, (∀ atom ∈ rule.body, ∀ v ∈ atom.vars, τ v = σ v) ∧
      (∀ atom ∈ rule.head, atom.assign τ ∈ net.workingMemory.toList) ∧
      ∀ v ∈ rule.existentials, ∃ fresh,
        ((id, Sorted.ofList ((net.builtins.patterns rule.body).map (Triple.assign σ))), fresh) ∈
          net.skolem.minted ∧ (v, τ v) ∈ fresh := by
  obtain ⟨_, _, hrunning⟩ := h.running
  obtain ⟨_, steps, hplan, _⟩ := hrunning.wired.production.planned id rule hrule
  obtain ⟨hsupport, hmatch⟩ := matches_assign (S := {t | t ∈ net.workingMemory.toList}) σ
    (tests_bound_of_plan hplan) htrue
  obtain ⟨fresh, hfresh, hall⟩ := h.held_of_matches hrule hsupport hmatch
  have hkeys := hrunning.grounded.keys hrule hfresh
  refine ⟨Binding.toAssignment
      ((Binding.ofAssignment σ (net.builtins.boundVars rule.body)).insertAllIfNew fresh),
    fun atom hatom v hv => ?_, fun atom hatom => ?_, fun v hv => ⟨fresh, ?_, ?_⟩⟩
  · have hbound := vars_bound_of_plan hplan atom hatom v hv
    rw [Binding.toAssignment, SortedMap.get?_insertAllIfNew, Binding.get?_ofAssignment,
      if_pos hbound, Option.some_or, Option.getD_some]
  · obtain ⟨t, ht⟩ := hbuilt.exists_substitute hplan hmatch hkeys hatom
    rw [Triple.assign_toAssignment ht]
    exact hall atom hatom t ht
  · exact mem_minted_of_witnesses (List.ne_nil_of_mem hv) hfresh
  · have hbody := hbuilt.not_mem_boundVars hv net.builtins
    obtain ⟨x, hx⟩ := Option.isSome_iff_exists.mp
      (SortedMap.lookup_isSome_iff.mpr (hkeys ▸ hv : v ∈ fresh.map Prod.fst))
    rw [Binding.toAssignment, SortedMap.get?_insertAllIfNew, Binding.get?_ofAssignment,
      if_neg hbody, Option.none_or, hx, Option.getD_some]
    exact SortedMap.mem_of_lookup hx

end Network

/-- **Between calls nothing is left to conclude, and nothing else was concluded.** For every
match of a production's body in the facts there are blank nodes for its existential
variables, those that the table keeps for the match's facts, and all instances of its head
are facts. A production without terminal node has the empty match. Every inferred triple is
such an instance. -/
theorem History.fixpoint {builtins : Registry} {options : NetworkOptions} {net : Network}
    {ledger : Ledger} (h : History builtins options net ledger)
    (hbuilt : ∀ rule ∈ ledger.rules, rule.Built) :
    (∀ id p, net.production? id = some p →
      (p.terminal = none → Matches builtins p.rule.body [] ∅) ∧
      ∀ support b, (∀ t ∈ support, t ∈ net.workingMemory.toList) →
        Matches builtins p.rule.body support b →
        ∃ fresh,
          (p.rule.existentials = [] ∧ fresh = [] ∨ p.rule.existentials ≠ [] ∧
            net.skolem.minted.lookup (id, Sorted.ofList support) = some fresh) ∧
          fresh.map Prod.fst = p.rule.existentials ∧
          ∀ atom ∈ p.rule.head, ∃ t, atom.substitute (b.insertAllIfNew fresh) = .ok t ∧
            t ∈ net.workingMemory.toList) ∧
    ∀ t ∈ net.inferred.toList, ∃ id p support b fresh, net.production? id = some p ∧
      (∀ u ∈ support, u ∈ net.workingMemory.toList) ∧ Matches builtins p.rule.body support b ∧
      (p.rule.existentials = [] ∧ fresh = [] ∨ p.rule.existentials ≠ [] ∧
        net.skolem.minted.lookup (id, Sorted.ofList support) = some fresh) ∧
      ∃ atom ∈ p.rule.head, atom.substitute (b.insertAllIfNew fresh) = .ok t := by
  have hkeeps := h.keeps
  have hresting := hkeeps.resting
  obtain ⟨log, started, hrunning⟩ := hresting.running
  refine ⟨fun id p hp => ?_, fun t ht => ?_⟩
  · have hrule : net.rule? id = some p.rule := Network.rule?_of_production? hp
    obtain ⟨_, steps, hplan, hsteps⟩ := hrunning.wired.production.planned id p.rule hrule
    refine ⟨fun hnone => ?_, fun support b hsupport hmatch => ?_⟩
    · have hterminal : net.terminal? id = some none :=
        (congrArg (Option.map Production.terminal) hp).trans (congrArg some hnone)
      rcases hsteps with ⟨rfl, _⟩ | ⟨terminal, _, hsome⟩
      · exact hkeeps.registry ▸ (matches_plan_iff hplan).mpr (Matches.empty _)
      · rw [hterminal] at hsome
        cases hsome
    · rw [← hkeeps.registry] at hmatch
      obtain ⟨fresh, hfresh, hall⟩ := hresting.held_of_matches hrule hsupport hmatch
      have hkeys := hrunning.grounded.keys hrule hfresh
      refine ⟨fresh, Network.witnesses_eq_some_iff.mp hfresh, hkeys, fun atom hatom => ?_⟩
      obtain ⟨t, ht⟩ :=
        (hbuilt _ (hkeeps.rules id p.rule hrule)).exists_substitute hplan hmatch hkeys hatom
      exact ⟨t, ht, hall atom hatom t ht⟩
  · obtain ⟨before, after, hsplit, id, rule, i, fresh, hrule, hsupport, hmatch, hfresh, hhead⟩ :=
      hrunning.grounded.inferred t ht
    obtain ⟨p, hp, rfl⟩ := Option.map_eq_some_iff.mp hrule
    refine ⟨id, p, i.support, i.binding, fresh, hp, fun u hu => ?_, hkeeps.registry ▸ hmatch,
      Network.witnesses_eq_some_iff.mp hfresh, hhead⟩
    rw [hsplit]
    exact List.mem_append_left _ (hsupport u hu)

theorem History.fixpoint_of_chain : ∃ net ledger p, History ∅ {} net ledger ∧
    (∀ rule ∈ ledger.rules, rule.Built) ∧ net.production? ⟨0⟩ = some p ∧ p.rule = continuation ∧
    net.inferred.toList = [⟨.iri "b", .iri "q", .blank "sk_1"⟩, ⟨.iri "c", .iri "q", .blank "sk_2"⟩] ∧
    ∀ support b, (∀ t ∈ support, t ∈ net.workingMemory.toList) →
      Matches ∅ continuation.body support b →
      ∃ fresh, net.skolem.minted.lookup (⟨0⟩, Sorted.ofList support) = some fresh ∧
        ∀ atom ∈ continuation.head, ∃ t, atom.substitute (b.insertAllIfNew fresh) = .ok t ∧
          t ∈ net.workingMemory.toList := by
  have hrun : ((Network.ofRule continuation 20 chain).bind fun e =>
      (e.1.production? ⟨0⟩).map fun p => (p.rule, e.1.inferred.toList)) =
        some (continuation, [⟨.iri "b", .iri "q", .blank "sk_1"⟩,
          ⟨.iri "c", .iri "q", .blank "sk_2"⟩]) := by decide +kernel
  obtain ⟨⟨net, result⟩, hcalls, hp⟩ := Option.bind_eq_some_iff.mp hrun
  obtain ⟨p, hp, heq⟩ := Option.map_eq_some_iff.mp hp
  obtain ⟨hrule, hinferred⟩ := Prod.mk.inj heq
  obtain ⟨ledger, h, hrules, _⟩ := History.of_ofRule hcalls
  have hbuilt : ∀ rule ∈ ledger.rules, rule.Built := by
    intro rule hin
    rw [hrules rule hin]
    exact ⟨_, _, _, rfl⟩
  refine ⟨net, ledger, p, h, hbuilt, hp, hrule, hinferred, fun support b hsupport hmatch => ?_⟩
  obtain ⟨fresh, hentry, _, hall⟩ :=
    ((h.fixpoint hbuilt).1 ⟨0⟩ p hp).2 support b hsupport (hrule ▸ hmatch)
  rw [hrule] at hentry hall
  rcases hentry with ⟨hnone, _⟩ | ⟨_, hentry⟩
  · exact absurd hnone (by decide +kernel)
  · exact ⟨fresh, hentry, hall⟩

end HornReasoner
