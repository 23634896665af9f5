import HornReasoner.Proofs.Network.Closure
import HornReasoner.Proofs.Network.Invariant
import HornReasoner.Proofs.Network.Minting
import HornReasoner.Proofs.Ontology.Interpretation
import HornReasoner.Proofs.Rule.Renaming

/-! The facts as an interpretation.

Whatever a rule concludes comes from an assignment that makes its body true, with blank nodes for
its existential variables (`Concludes.exists_assignment`). Facts have no variables, whatever the
rules (`History.variableFree`), so at rest they are an interpretation in which the rules hold
(`History.holdsIn`). -/
namespace HornReasoner

/-- Whether a rule holds depends on its atoms, not on their order. -/
theorem HornRule.HoldsIn.of_signature_eq {M : Set Triple} {rule other : HornRule}
    (h : other.HoldsIn M) (hother : other.Built) (hrule : rule.Built)
    (hsig : RuleSignature.of other = RuleSignature.of rule) : rule.HoldsIn M := by
  obtain ⟨hbody, hhead⟩ := mem_iff_of_signature_eq hsig
  have hexistentials : ∀ v, v ∈ other.existentials ↔ v ∈ rule.existentials := by
    intro v
    simp only [hother.existentials, hrule.existentials, mem_headOnly, List.mem_flatMap, hbody, hhead]
  intro σ hσ htrue
  obtain ⟨τ, hτ, hagree, hall⟩ := h σ hσ fun a ha => htrue a ((hbody a).mp ha)
  exact ⟨τ, hτ, fun v hv => hagree v fun hin => hv ((hexistentials v).mp hin),
    fun a ha => hall a ((hhead a).mpr ha)⟩

namespace Network

variable {net : Network} {fed facts : List Triple} {t : Triple}

/-- What is concluded is an instance of a head under an assignment that makes the body true. The
existential variables have blank nodes of the table. -/
theorem Concludes.exists_assignment (h : net.Concludes facts t) (hgrounded : net.Grounded fed)
    (hbuilt : ∀ id rule, net.rule? id = some rule → rule.Built) :
    ∃ id rule, net.rule? id = some rule ∧ ∃ τ : Variable → Term,
      (∀ atom ∈ net.builtins.patterns rule.body, atom.assign τ ∈ facts) ∧
      (∀ v ∈ rule.existentials, τ v ∈ net.skolem.blanks) ∧ ∃ atom ∈ rule.head, atom.assign τ = t := by
  obtain ⟨id, rule, i, fresh, hrule, hsupport, hmatch, hfresh, atom, hatom, ht⟩ := h
  let b : Binding := i.binding.insertAllIfNew fresh
  have hget : ∀ v, b.get? v = (i.binding.get? v).or (SortedMap.lookup v fresh) := fun v =>
    SortedMap.get?_insertAllIfNew ..
  refine ⟨id, rule, hrule, b.toAssignment, fun other hother => ?_, fun v hv => ?_, atom, hatom,
    Triple.assign_toAssignment ht⟩
  · obtain ⟨u, hu, hinstance⟩ := hmatch.exists_fact hother
    have hextends : b.Extends i.binding := by
      intro v x hx
      rw [hget, hx, Option.some_or]
    rw [Triple.assign_toAssignment (Triple.substitute_mono hextends hinstance)]
    exact hsupport u hu
  · have hunbound : i.binding.get? v = none := by
      refine Option.eq_none_iff_forall_ne_some.mpr fun x hx => ?_
      refine (hbuilt id rule hrule).not_mem_boundVars hv net.builtins ((hmatch.domain v).mp ?_)
      exact (SortedMap.contains_iff _).mpr ⟨x, hx⟩
    have hkeys := hgrounded.keys hrule hfresh
    obtain ⟨x, hx⟩ := Option.isSome_iff_exists.mp
      (SortedMap.lookup_isSome_iff.mpr (hkeys ▸ hv : v ∈ fresh.map Prod.fst))
    have hvalue : b.toAssignment v = x := by
      rw [Binding.toAssignment, hget, hunbound, Option.none_or, hx, Option.getD_some]
    rw [hvalue]
    exact SkolemTable.mem_blanks_of_lookup
      (mem_minted_of_witnesses (List.ne_nil_of_mem hv) hfresh) hx

/-- What is concluded from facts without variables has none: a term of it stands in the head, or
is a value that comes from a fact, or is a blank node of the table. -/
theorem Concludes.hasVariables_eq_false (h : net.Concludes facts t) (htabled : net.Tabled)
    (hfacts : VariableFree {u | u ∈ facts}) : t.hasVariables = false := by
  obtain ⟨id, rule, i, fresh, -, hsupport, hmatch, hfresh, atom, -, ht⟩ := h
  have hterm : ∀ x ∈ t.terms, x.IsIndividual := by
    intro x hx
    rcases Triple.term_of_substitute ht hx with ⟨-, hconstant⟩ | ⟨v, hv⟩
    · cases x with
      | var w => cases hconstant
      | iri s | literal l | blank s => rfl
    · rw [SortedMap.get?_insertAllIfNew, Option.or_eq_some_iff] at hv
      rcases hv with hbound | ⟨-, hvalue⟩
      · obtain ⟨u, hu, hin⟩ := hmatch.value_mem hbound
        exact hfacts.isIndividual (hsupport u hu) hin
      · have hexistentials : rule.existentials ≠ [] := by
          rintro hnone
          rcases witnesses_eq_some_iff.mp hfresh with ⟨-, rfl⟩ | ⟨hsome, -⟩
          · cases hvalue
          · exact hsome hnone
        have hblank := (htabled.orderly.mintable (SkolemTable.mem_blanks_of_lookup
          (mem_minted_of_witnesses hexistentials hfresh) hvalue)).isBlank
        cases x with
        | var w => cases hblank
        | iri s | literal l | blank s => rfl
  simpa [Triple.hasVariables, Term.IsIndividual] using hterm

/-- At rest a rule without tests holds in the facts. -/
theorem Resting.holdsIn (h : net.Resting fed []) {id : ProductionId} {rule : HornRule}
    (hrule : net.rule? id = some rule) (hbuilt : rule.Built)
    (htests : ∀ atom ∈ rule.body, net.builtins.isTest atom = false)
    (hfree : VariableFree {t | t ∈ net.workingMemory.toList}) :
    rule.HoldsIn {t | t ∈ net.workingMemory.toList} := by
  classical
  intro σ hσ htrue
  obtain ⟨τ, hbody, hhead, _⟩ := h.exists_assignment hrule hbuilt σ fun atom hatom => by
    rw [htests atom hatom, if_neg Bool.false_ne_true]
    exact htrue atom hatom
  -- the values of other variables are of no account
  let υ : Variable → Term := fun v => if v ∈ rule.existentials then τ v else σ v
  have hsame : ∀ atom ∈ rule.head, ∀ v ∈ atom.vars, υ v = τ v := by
    intro atom hatom v hv
    by_cases hin : v ∈ rule.existentials
    · exact if_pos hin
    · obtain ⟨other, hother, hvar⟩ := (hbuilt.mem_vars hatom hv).resolve_right hin
      exact (if_neg hin).trans (hbody other hother v hvar).symm
  refine ⟨υ, fun v => ?_, fun v hv => if_neg hv, fun atom hatom => ?_⟩
  · by_cases hin : v ∈ rule.existentials
    · obtain ⟨atom, hatom, hvar⟩ : ∃ atom ∈ rule.head, v ∈ atom.vars := by
        rw [hbuilt.existentials] at hin
        exact List.mem_flatMap.mp (HornRule.mem_headOnly.mp hin).1
      rw [hsame atom hatom v hvar]
      exact Triple.hasVariables_assign_eq_false_iff.mp (hfree _ (hhead atom hatom)) v hvar
    · simpa only [υ, if_neg hin] using hσ v
  · rw [Triple.assign_congr (hsame atom hatom)]
    exact hhead atom hatom

end Network

open Network

section History
variable {builtins : Registry} {options : NetworkOptions} {net : Network} {ledger : Ledger}

theorem History.built_of_rule? (h : History builtins options net ledger)
    (hbuilt : ∀ rule ∈ ledger.rules, rule.Built) :
    ∀ id rule, net.rule? id = some rule → rule.Built :=
  fun id rule hrule => hbuilt rule (h.keeps.rules id rule hrule)

/-- What holds of the facts that were fed, and leads from the instances of a body to those of the
head, holds of all facts. Existential variables have blank nodes. -/
theorem History.forall_facts (h : History builtins options net ledger)
    (hbuilt : ∀ rule ∈ ledger.rules, rule.Built) {P : Triple → Prop}
    (hfed : ∀ t ∈ ledger.facts, P t)
    (hrules : ∀ rule ∈ ledger.rules, ∀ τ : Variable → Term,
      (∀ v ∈ rule.existentials, (τ v).isBlank = true) →
      (∀ atom ∈ builtins.patterns rule.body, P (atom.assign τ)) →
        ∀ atom ∈ rule.head, P (atom.assign τ)) :
    ∀ t ∈ net.workingMemory.toList, P t := by
  have hkeeps := h.keeps
  obtain ⟨_, _, _, hcourse, _⟩ := h.course
  obtain ⟨_, _, hrunning⟩ := hkeeps.resting.running
  refine hrunning.grounded.induction hfed fun facts t hfacts ht => ?_
  obtain ⟨id, rule, hrule, τ, hbody, hfresh, atom, hatom, rfl⟩ :=
    ht.exists_assignment hrunning.grounded (h.built_of_rule? hbuilt)
  rw [hkeeps.registry] at hbody
  exact hrules rule (hkeeps.rules id rule hrule) τ
    (fun v hv => (hcourse.tabled.orderly.mintable (hfresh v hv)).isBlank)
    (fun other hother => hfacts _ (hbody other hother)) atom hatom

/-- No fact that was fed has a variable. -/
theorem History.variableFree_fed (h : History builtins options net ledger) :
    VariableFree {t | t ∈ ledger.facts} := by
  induction h with
  | new | reset => exact List.forall_mem_nil _
  | addRule _ _ ih | addRules _ _ ih | setCancellation _ _ ih => exact ih
  | feed _ hcall ih => exact List.forall_mem_append.mpr ⟨ih, (feeds_takenFacts hcall).1⟩

/-- **No variable comes into the facts**, whatever the rules. -/
theorem History.variableFree (h : History builtins options net ledger) :
    VariableFree {t | t ∈ net.workingMemory.toList} := by
  obtain ⟨_, _, _, hcourse, _⟩ := h.course
  obtain ⟨_, _, hrunning⟩ := h.keeps.resting.running
  exact hrunning.grounded.induction h.variableFree_fed fun _ _ hfacts ht =>
    ht.hasVariables_eq_false hcourse.tabled hfacts

/-- **After every call the facts are an interpretation in which the rules hold**, those without
tests. -/
theorem History.holdsIn (h : History builtins options net ledger)
    (hbuilt : ∀ rule ∈ ledger.rules, rule.Built) {rule : HornRule} (hrule : rule ∈ ledger.rules)
    (htests : ∀ atom ∈ rule.body, builtins.isTest atom = false) :
    rule.HoldsIn {t | t ∈ net.workingMemory.toList} := by
  have hkeeps := h.keeps
  obtain ⟨⟨id, other, hother, hsig⟩, _⟩ := hkeeps.found rule hrule
  have hotherBuilt := h.built_of_rule? hbuilt id other hother
  refine (hkeeps.resting.holdsIn hother hotherBuilt (fun atom hatom => ?_)
    h.variableFree).of_signature_eq hotherBuilt (hbuilt rule hrule) hsig
  rw [hkeeps.registry]
  exact htests atom (((HornRule.mem_iff_of_signature_eq hsig).1 atom).mp hatom)

end History

end HornReasoner
