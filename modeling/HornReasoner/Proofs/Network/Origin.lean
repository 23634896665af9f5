import HornReasoner.Proofs.Network.Closure

/-! Fed or inferred.

A fact that comes to a network is inferred if the network concludes it before it is fed. So
the inferred facts depend on the order of feeding (`History.inferred_of_order`), but not by
much: whatever was inferred follows from the other facts, and whatever follows without being
fed was inferred. Two histories with the same rules and facts can only disagree about a triple
that was fed and follows from the others (`History.inferred_agree`). -/
namespace HornReasoner

open Network

namespace Network

variable {net : Network} {builtins : Registry} {ledger : Ledger}

/-- The facts are closed under all rules that were kept. -/
theorem Keeps.closedIn (h : net.Keeps builtins ledger) (hsafe : ∀ rule ∈ ledger.rules, rule.Safe)
    {rule : HornRule} (hrule : rule ∈ ledger.rules) :
    rule.ClosedIn builtins {t | t ∈ net.workingMemory.toList} := by
  obtain ⟨⟨id, other, hother, hsig⟩, _⟩ := h.found rule hrule
  have hclosed := h.resting.closedIn hother (hsafe other (h.rules id other hother))
  exact h.registry ▸ hclosed.of_signature_eq hsig

/-- The facts that were not inferred lead to all others. -/
theorem Keeps.subset_of_closedIn (h : net.Keeps builtins ledger)
    (hsafe : ∀ rule ∈ ledger.rules, rule.Safe) {S : Set Triple}
    (hfacts : ∀ t ∈ ledger.facts, t ∉ net.inferred.toList → t ∈ S)
    (hclosed : ∀ rule ∈ ledger.rules, rule.ClosedIn builtins S) :
    ∀ t ∈ net.workingMemory.toList, t ∈ S := by
  obtain ⟨log, started, hrunning⟩ := h.resting.running
  refine hrunning.grounded.induction_of_asserted hfacts fun facts t hall ht => ?_
  refine ht.mem_of_closedIn hall fun id rule hrule => ?_
  have hin := h.rules id rule hrule
  obtain ⟨hbuilt, hnone⟩ := hsafe rule hin
  rw [hbuilt.existentials, h.registry]
  exact ⟨hnone, hclosed rule hin⟩

/-- Of two networks with the same rules and facts, one has no more than the other. -/
theorem Keeps.subset {net' : Network} {ledger' : Ledger} (h : net.Keeps builtins ledger)
    (h' : net'.Keeps builtins ledger') (hsafe : ∀ rule ∈ ledger.rules, rule.Safe)
    (hrules : ∀ rule, rule ∈ ledger.rules ↔ rule ∈ ledger'.rules)
    (hfacts : ∀ t, t ∈ ledger.facts ↔ t ∈ ledger'.facts) :
    ∀ t ∈ net.workingMemory.toList, t ∈ net'.workingMemory.toList := by
  obtain ⟨log, started, hrunning⟩ := h'.resting.running
  refine h.subset_of_closedIn hsafe (fun t ht _ => hrunning.grounded.kept t ((hfacts t).mp ht))
    fun rule hrule => ?_
  exact h'.closedIn (fun other hother => hsafe other ((hrules other).mpr hother))
    ((hrules rule).mp hrule)

end Network

end HornReasoner
