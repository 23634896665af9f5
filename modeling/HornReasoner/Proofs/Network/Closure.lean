import HornReasoner.Proofs.Network.Fixpoint
import Mathlib.Order.Bounds.Basic

/-! The least closed set.

Without existential variables the facts between calls are the least set that has the facts
fed and is closed under the rules. They are closed because every match was fired on, and
least because every inferred fact was concluded from facts before it. -/
namespace HornReasoner

namespace HornRule

/-- No variable of the head is missing in the body. -/
def Safe (rule : HornRule) : Prop := rule.Built ∧ headOnly rule.body rule.head = []

variable {r : Registry} {rule other : HornRule} {S : Set Triple}

/-- Rules of one signature have the same atoms. -/
theorem mem_iff_of_signature_eq (hsig : RuleSignature.of other = RuleSignature.of rule) :
    (∀ t, t ∈ other.body ↔ t ∈ rule.body) ∧ ∀ t, t ∈ other.head ↔ t ∈ rule.head := by
  obtain ⟨hbody, hhead⟩ := RuleSignature.mk.inj hsig
  have hmem : ∀ {as bs : List Triple}, Sorted.ofList as = Sorted.ofList bs →
      ∀ t, t ∈ as ↔ t ∈ bs := fun heq t => by
    rw [← Sorted.mem_ofList, heq, Sorted.mem_ofList]
  exact ⟨hmem hbody, hmem hhead⟩

/-- Whether a set is closed depends on the atoms of a rule, not on their order. -/
theorem ClosedIn.of_signature_eq (h : other.ClosedIn r S)
    (hsig : RuleSignature.of other = RuleSignature.of rule) : rule.ClosedIn r S := by
  obtain ⟨hbody, hhead⟩ := mem_iff_of_signature_eq hsig
  intro σ htrue atom hatom
  exact h σ (fun a ha => htrue a ((hbody a).mp ha)) atom ((hhead atom).mpr hatom)

end HornRule

namespace Network

variable {net : Network} {fed : List Triple}

/-- At rest the facts are closed under the rule of every production. -/
theorem Resting.closedIn (h : net.Resting fed []) {id : ProductionId} {rule : HornRule}
    (hrule : net.rule? id = some rule) (hsafe : rule.Safe) :
    rule.ClosedIn net.builtins {t | t ∈ net.workingMemory.toList} := by
  intro σ htrue atom hatom
  obtain ⟨τ, hbody, hhead, _⟩ := h.exists_assignment hrule hsafe.1 σ htrue
  have hsame : atom.assign τ = atom.assign σ := Triple.assign_congr fun v hv => by
    rcases hsafe.1.mem_vars hatom hv with ⟨other, hother, hv⟩ | hv
    · exact hbody other hother v hv
    · rw [hsafe.1.existentials, hsafe.2] at hv
      cases hv
  exact hsame ▸ hhead atom hatom

/-- What holds of the facts that were not inferred, and of whatever is concluded from facts of
which it holds, holds of all facts. -/
theorem Grounded.induction_of_asserted (h : net.Grounded fed) {P : Triple → Prop}
    (hfed : ∀ t ∈ fed, t ∉ net.inferred.toList → P t)
    (hconcludes : ∀ facts t, (∀ u ∈ facts, P u) → net.Concludes facts t → P t) :
    ∀ t ∈ net.workingMemory.toList, P t := by
  refine forall_mem_of_before net.workingMemory.nodup fun t ht => ?_
  by_cases hin : t ∈ net.inferred.toList
  · obtain ⟨before, after, hsplit, hlast⟩ := h.inferred t hin
    exact ⟨before, after, hsplit, fun hbefore => hconcludes before t hbefore hlast⟩
  · obtain ⟨before, after, hsplit⟩ := List.append_of_mem ht
    exact ⟨before, after, hsplit, fun _ => hfed t ((h.origin t ht).resolve_right hin) hin⟩

/-- What holds of the facts fed, and of whatever is concluded from facts of which it holds,
holds of all facts. -/
theorem Grounded.induction (h : net.Grounded fed) {P : Triple → Prop} (hfed : ∀ t ∈ fed, P t)
    (hconcludes : ∀ facts t, (∀ u ∈ facts, P u) → net.Concludes facts t → P t) :
    ∀ t ∈ net.workingMemory.toList, P t :=
  h.induction_of_asserted (fun t ht _ => hfed t ht) hconcludes

/-- What a rule without existential variables concludes is in every closed set. -/
theorem Concludes.mem_of_closedIn {facts : List Triple} {t : Triple} (h : net.Concludes facts t)
    {S : Set Triple} (hfacts : ∀ u ∈ facts, u ∈ S)
    (hclosed : ∀ id rule, net.rule? id = some rule →
      rule.existentials = [] ∧ rule.ClosedIn net.builtins S) : t ∈ S := by
  obtain ⟨id, rule, i, fresh, hrule, hsupport, hmatch, hfresh, atom, hatom, ht⟩ := h
  obtain ⟨hnone, hclosed⟩ := hclosed id rule hrule
  have hempty : fresh = [] := by
    rcases witnesses_eq_some_iff.mp hfresh with ⟨_, hempty⟩ | ⟨hsome, _⟩
    · exact hempty
    · exact absurd hnone hsome
  rw [hempty] at ht
  exact hmatch.closed hclosed (fun u hu => hfacts u (hsupport u hu)) hatom ht

end Network

/-- **Without existential variables the facts are the least set that has the facts fed and is
closed under the rules.** -/
theorem History.least_closed {builtins : Registry} {options : NetworkOptions} {net : Network}
    {ledger : Ledger} (h : History builtins options net ledger)
    (hsafe : ∀ rule ∈ ledger.rules, rule.Safe) :
    IsLeast {S : Set Triple | (∀ t ∈ ledger.facts, t ∈ S) ∧
      ∀ rule ∈ ledger.rules, rule.ClosedIn builtins S} {t | t ∈ net.workingMemory.toList} := by
  have hkeeps := h.keeps
  obtain ⟨log, started, hrunning⟩ := hkeeps.resting.running
  refine ⟨⟨hrunning.grounded.kept, fun rule hrule => ?_⟩, fun S ⟨hfacts, hclosed⟩ => ?_⟩
  · obtain ⟨⟨id, other, hother, hsig⟩, _⟩ := hkeeps.found rule hrule
    rw [← hkeeps.registry]
    exact (hkeeps.resting.closedIn hother (hsafe other (hkeeps.rules id other hother))).of_signature_eq
      hsig
  · refine hrunning.grounded.induction hfacts fun facts t hall ht => ?_
    refine ht.mem_of_closedIn hall fun id rule hrule => ?_
    have hin := hkeeps.rules id rule hrule
    obtain ⟨hbuilt, hnone⟩ := hsafe rule hin
    rw [hbuilt.existentials, hkeeps.registry]
    exact ⟨hnone, hclosed rule hin⟩

theorem History.least_closed_of_chain : ∃ net ledger, History ∅ {} net ledger ∧
    (∀ rule ∈ ledger.rules, rule.Safe) ∧ ledger.facts = chain ∧
    net.workingMemory.toList = chain ++ [⟨.iri "a", .iri "p", .iri "c"⟩] ∧
    IsLeast {S : Set Triple | (∀ t ∈ ledger.facts, t ∈ S) ∧
      ∀ rule ∈ ledger.rules, rule.ClosedIn ∅ S} {t | t ∈ net.workingMemory.toList} := by
  have hrun : (Network.ofRule transitivity 20 chain).map
      (fun e => (takenFacts chain e.2, e.1.workingMemory.toList)) =
        some (chain, chain ++ [⟨.iri "a", .iri "p", .iri "c"⟩]) := by decide +kernel
  obtain ⟨⟨net, result⟩, hcalls, heq⟩ := Option.map_eq_some_iff.mp hrun
  obtain ⟨htaken, hmemory⟩ := Prod.mk.inj heq
  obtain ⟨ledger, h, hrules, hfacts⟩ := History.of_ofRule hcalls
  have hsafe : ∀ rule ∈ ledger.rules, rule.Safe := by
    intro rule hrule
    rw [hrules rule hrule]
    exact ⟨⟨_, _, _, rfl⟩, by decide +kernel⟩
  exact ⟨net, ledger, h, hsafe, hfacts.trans htaken, hmemory, h.least_closed hsafe⟩

end HornReasoner
