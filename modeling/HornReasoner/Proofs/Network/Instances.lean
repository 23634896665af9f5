import HornReasoner.Network.Build
import HornReasoner.Proofs.Rule.Matching
import Mathlib.Data.List.Induction

/-! The instances of a plan.

`instances` runs a plan over a list of facts without a network: each pattern joins all
that was found before it with all its own matches, each test keeps what passes. It is
what the memories of a network are measured against, and by `mem_instances` it is
nothing but the matches of the plan's atoms. -/
namespace HornReasoner

/-! ### Plans that can be evaluated -/

/-- The atoms of a plan. -/
def PlanStep.atoms (steps : List PlanStep) : List Triple := steps.map PlanStep.triple

theorem PlanStep.atoms_append (as bs : List PlanStep) : atoms (as ++ bs) = atoms as ++ atoms bs :=
  List.map_append

/-- Steps in an order in which they can be evaluated: a test has variables, and patterns
before it bind them. -/
inductive Evaluable (r : Registry) : List PlanStep → Prop where
  | nil : Evaluable r []
  | pattern {steps : List PlanStep} {t : Triple} : Evaluable r steps → r.isTest t = false →
      Evaluable r (steps ++ [.pattern t])
  | builtin {steps : List PlanStep} {t : Triple} : Evaluable r steps → r.isTest t = true →
      t.hasVariables = true → (∀ v ∈ t.vars, v ∈ r.boundVars (PlanStep.atoms steps)) →
      Evaluable r (steps ++ [.builtin t])

theorem Triple.hasVariables_iff {t : Triple} : t.hasVariables = true ↔ ∃ v, v ∈ t.vars := by
  have hvar : ∀ x : Term, x.isVariable = true ↔ ∃ v, x.var? = some v := by
    intro x
    cases x <;> simp [Term.isVariable, Term.var?]
  simp only [hasVariables, terms, List.any_cons, List.any_nil, Bool.or_false, Bool.or_eq_true, hvar,
    mem_vars]
  constructor
  · rintro (⟨v, h⟩ | ⟨v, h⟩ | ⟨v, h⟩)
    · exact ⟨v, .inl h⟩
    · exact ⟨v, .inr (.inl h)⟩
    · exact ⟨v, .inr (.inr h)⟩
  · rintro ⟨v, h | h | h⟩
    · exact .inl ⟨v, h⟩
    · exact .inr (.inl ⟨v, h⟩)
    · exact .inr (.inr ⟨v, h⟩)

namespace Evaluable
variable {r : Registry} {steps : List PlanStep}

theorem boundVars_snoc_pattern {t : Triple} (ht : r.isTest t = false) :
    r.boundVars (PlanStep.atoms (steps ++ [.pattern t])) =
      r.boundVars (PlanStep.atoms steps) ++ t.vars := by
  rw [PlanStep.atoms_append, Registry.boundVars_append]
  congr 1
  show (r.patterns [t]).flatMap Triple.vars = t.vars
  rw [Registry.patterns_of_not_isTest ht, List.flatMap_singleton]

theorem boundVars_snoc_builtin {t : Triple} (ht : r.isTest t = true) :
    r.boundVars (PlanStep.atoms (steps ++ [.builtin t])) = r.boundVars (PlanStep.atoms steps) := by
  rw [PlanStep.atoms_append, Registry.boundVars_append]
  show _ ++ (r.patterns [t]).flatMap Triple.vars = _
  rw [Registry.patterns_of_isTest ht, List.flatMap_nil, List.append_nil]

theorem boundVars_eq (h : Evaluable r steps) :
    r.boundVars (PlanStep.atoms steps) = (steps.filterMap PlanStep.pattern?).flatMap Triple.vars := by
  induction h with
  | nil => rfl
  | pattern _ ht ih =>
    rw [boundVars_snoc_pattern ht, ih, List.filterMap_append, List.flatMap_append]
    simp [PlanStep.pattern?]
  | builtin _ ht _ _ ih =>
    rw [boundVars_snoc_builtin ht, ih, List.filterMap_append, List.flatMap_append]
    simp [PlanStep.pattern?]

/-- What is tested is bound by patterns. -/
theorem tests_bound (h : Evaluable r steps) : ∀ atom ∈ PlanStep.atoms steps,
    r.isTest atom = true → ∀ v ∈ atom.vars, v ∈ r.boundVars (PlanStep.atoms steps) := by
  induction h with
  | nil => simp [PlanStep.atoms]
  | pattern _ ht ih =>
    intro atom hatom htest v hv
    rw [boundVars_snoc_pattern ht]
    rw [PlanStep.atoms_append] at hatom
    rcases List.mem_append.mp hatom with hatom | hatom
    · exact List.mem_append_left _ (ih atom hatom htest v hv)
    · rw [List.mem_singleton.mp hatom] at htest
      exact absurd (htest.symm.trans ht) (by decide)
  | builtin _ ht _ hbound ih =>
    intro atom hatom htest v hv
    rw [boundVars_snoc_builtin ht]
    rw [PlanStep.atoms_append] at hatom
    rcases List.mem_append.mp hatom with hatom | hatom
    · exact ih atom hatom htest v hv
    · rw [List.mem_singleton.mp hatom] at hv
      exact hbound v hv

/-- A plan starts with a pattern. -/
theorem starts_with_pattern (h : Evaluable r steps) :
    steps = [] ∨ ∃ t rest, steps = .pattern t :: rest := by
  induction h with
  | nil => exact .inl rfl
  | @pattern steps t _ _ ih =>
    rcases ih with rfl | ⟨u, rest, rfl⟩
    · exact .inr ⟨t, [], rfl⟩
    · exact .inr ⟨u, rest ++ [.pattern t], rfl⟩
  | @builtin steps t _ _ hvars hbound ih =>
    rcases ih with rfl | ⟨u, rest, rfl⟩
    · obtain ⟨v, hv⟩ := Triple.hasVariables_iff.mp hvars
      exact absurd (hbound v hv) List.not_mem_nil
    · exact .inr ⟨u, rest ++ [.builtin t], rfl⟩

/-- The last step goes behind steps that can be evaluated. -/
theorem of_snoc {step : PlanStep} (h : Evaluable r (steps ++ [step])) :
    Evaluable r steps ∧ match step with
      | .pattern t => r.isTest t = false
      | .builtin t => r.isTest t = true ∧ t.hasVariables = true ∧
          ∀ v ∈ t.vars, v ∈ r.boundVars (PlanStep.atoms steps) := by
  obtain ⟨all, hs⟩ : ∃ all, steps ++ [step] = all := ⟨_, rfl⟩
  rw [hs] at h
  cases h with
  | nil => exact absurd hs (by simp)
  | pattern hinit ht =>
    obtain ⟨rfl, hstep⟩ := List.append_inj' hs rfl
    cases hstep
    exact ⟨hinit, ht⟩
  | builtin hinit ht hvars hbound =>
    obtain ⟨rfl, hstep⟩ := List.append_inj' hs rfl
    cases hstep
    exact ⟨hinit, ht, hvars, hbound⟩

theorem of_append {more : List PlanStep} (h : Evaluable r (steps ++ more)) : Evaluable r steps := by
  induction more using List.reverseRecOn with
  | nil => exact List.append_nil steps ▸ h
  | append_singleton init step ih =>
    rw [← List.append_assoc] at h
    exact ih h.of_snoc.1

end Evaluable

/-! ### Matches, step by step -/

namespace Matches
variable {r : Registry} {atoms support : List Triple} {b : Binding}

/-- One more pattern and its match. -/
theorem snoc_pattern {c d : Binding} {atom fact : Triple} (h : Matches r atoms support b)
    (hatom : r.isTest atom = false) (hc : Binding.ofMatch atom fact = some c)
    (hd : b.merge c = some d) : Matches r (atoms ++ [atom]) (support ++ [fact]) d where
  facts := by
    rw [Registry.patterns_snoc_pattern hatom]
    refine List.rel_append (h.facts.imp fun _ _ => ?_) (.cons ?_ .nil)
    · exact Triple.substitute_mono (Binding.merge_extends_left hd)
    · exact Triple.substitute_mono (Binding.merge_extends_right hd) (Binding.ofMatch_spec hc).1
  tests := by
    intro a ha htest
    rcases List.mem_append.mp ha with ha | ha
    · obtain ⟨t, ht, hholds⟩ := h.tests a ha htest
      exact ⟨t, Triple.substitute_mono (Binding.merge_extends_left hd) ht, hholds⟩
    · rw [List.mem_singleton.mp ha] at htest
      exact absurd (htest.symm.trans hatom) (by decide)
  domain := by
    intro v
    rw [Binding.contains_merge hd, h.domain, (Binding.ofMatch_spec hc).2, Registry.boundVars_append,
      List.mem_append]
    refine or_congr_right ?_
    rw [Registry.boundVars, Registry.patterns_of_not_isTest hatom, List.flatMap_singleton]

/-- A match whose last atom is a pattern is a match of the others joined with one of the
pattern. -/
theorem exists_of_snoc_pattern {d : Binding} {atom : Triple}
    (h : Matches r (atoms ++ [atom]) support d) (hatom : r.isTest atom = false)
    (htests : ∀ a ∈ atoms, r.isTest a = true → ∀ v ∈ a.vars, v ∈ r.boundVars atoms) :
    ∃ s fact b c, support = s ++ [fact] ∧ Matches r atoms s b ∧
      Binding.ofMatch atom fact = some c ∧ b.merge c = some d := by
  have hfacts := h.facts
  rw [Registry.patterns_snoc_pattern hatom] at hfacts
  have hlast := List.forall₂_drop_append _ _ _ hfacts.flip
  have hinit := (List.forall₂_take_append _ _ _ hfacts.flip).flip
  obtain ⟨fact, tail, hfact, htail, hdrop⟩ := List.forall₂_cons_right_iff.mp hlast
  rw [List.forall₂_nil_right_iff.mp htail] at hdrop
  obtain ⟨c, hc, hdc⟩ := Binding.exists_ofMatch hfact
  have hmatch : Matches r atoms (support.take (r.patterns atoms).length)
      (d.restrict (r.boundVars atoms)) :=
    { facts := by
        have hvars : ∀ a ∈ r.patterns atoms, ∀ v ∈ a.vars, v ∈ r.boundVars atoms :=
          fun a ha v hv => List.mem_flatMap.mpr ⟨a, ha, hv⟩
        exact ((List.forall₂_and_left _ _).mpr ⟨hvars, hinit⟩).imp fun a t ⟨hav, hat⟩ =>
          Triple.substitute_restrict hat hav
      tests := by
        intro a ha htest
        obtain ⟨t, ht, hholds⟩ := h.tests a (List.mem_append_left _ ha) htest
        exact ⟨t, Triple.substitute_restrict ht (htests a ha htest), hholds⟩
      domain := by
        intro v
        rw [SortedMap.contains_iff, SortedMap.get?_restrict]
        split
        · rename_i hv
          refine iff_of_true ?_ hv
          rw [← SortedMap.contains_iff, h.domain, Registry.boundVars_append]
          exact List.mem_append_left _ hv
        · rename_i hv
          simp [hv] }
  obtain ⟨m, hm, hdm⟩ := Binding.exists_merge (d.extends_restrict (r.boundVars atoms)) hdc
  have hsupport : support = support.take (r.patterns atoms).length ++ [fact] := by
    rw [← hdrop, List.take_append_drop]
  refine ⟨_, fact, _, c, hsupport, hmatch, hc, hm.trans (congrArg some ?_)⟩
  rw [hsupport] at h
  exact (hmatch.snoc_pattern hatom hc hm).binding_unique h

/-- One more test that passes. -/
theorem snoc_test_iff {atom : Triple} (hatom : r.isTest atom = true) :
    Matches r (atoms ++ [atom]) support b ↔
      Matches r atoms support b ∧ ∃ t, atom.substitute b = .ok t ∧ r.holds t = true := by
  have hpatterns : r.patterns (atoms ++ [atom]) = r.patterns atoms := by
    rw [Registry.patterns_snoc_test hatom]
  have hbound : r.boundVars (atoms ++ [atom]) = r.boundVars atoms := by
    rw [Registry.boundVars, hpatterns]
    rfl
  constructor
  · intro h
    refine ⟨⟨hpatterns ▸ h.facts, fun a ha => h.tests a (List.mem_append_left _ ha),
      hbound ▸ h.domain⟩, h.tests atom (by simp) hatom⟩
  · rintro ⟨h, htest⟩
    refine ⟨hpatterns.symm ▸ h.facts, fun a ha hat => ?_, hbound.symm ▸ h.domain⟩
    rcases List.mem_append.mp ha with ha | ha
    · exact h.tests a ha hat
    · rw [List.mem_singleton.mp ha]
      exact htest

end Matches

/-- The network's test of a built-in, on its instance. -/
theorem testBuiltin_iff {r : Registry} {t : Triple} (ht : r.isTest t = true) (b : Binding) :
    Network.testBuiltin r (Network.predicateName t.predicate) t b = true ↔
      ∃ u, t.substitute b = .ok u ∧ r.holds u = true := by
  obtain ⟨s, p, o⟩ := t
  cases p with
  | iri iri =>
    simp only [Triple.substitute_eq_ok_iff, Network.testBuiltin, Network.predicateName]
    constructor
    · intro h
      split at h
      · rename_i s' o' hs ho
        exact ⟨⟨s', .iri iri, o'⟩, ⟨hs, rfl, ho⟩, h⟩
      · cases h
    · rintro ⟨⟨s', p', o'⟩, ⟨hs, hp, ho⟩, h⟩
      cases hp
      dsimp only at hs ho ⊢
      rw [hs, ho]
      exact h
  | literal l | blank s | var v => cases ht

/-! ### Instances -/

namespace Match

/-- The match of a pattern with a fact. -/
def of? (pattern fact : Triple) : Option Match :=
  (Binding.ofMatch pattern fact).map fun binding => ⟨fact, binding⟩

/-- All matches of a pattern, in the order of the facts. -/
def all (pattern : Triple) (facts : List Triple) : List Match := facts.filterMap (of? pattern)

theorem of?_eq_some_iff {pattern fact : Triple} {m : Match} :
    of? pattern fact = some m ↔ m.fact = fact ∧ Binding.ofMatch pattern fact = some m.binding := by
  obtain ⟨f, b⟩ := m
  simp only [of?, Option.map_eq_some_iff, Match.mk.injEq]
  constructor
  · rintro ⟨c, hc, rfl, rfl⟩
    exact ⟨rfl, hc⟩
  · rintro ⟨rfl, hb⟩
    exact ⟨b, hb, rfl, rfl⟩

theorem mem_all {pattern : Triple} {facts : List Triple} {m : Match} :
    m ∈ all pattern facts ↔
      m.fact ∈ facts ∧ Binding.ofMatch pattern m.fact = some m.binding := by
  simp only [all, List.mem_filterMap, of?_eq_some_iff]
  constructor
  · rintro ⟨f, hf, rfl, hb⟩
    exact ⟨hf, hb⟩
  · rintro ⟨hf, hb⟩
    exact ⟨m.fact, hf, rfl, hb⟩

/-- Each fact matches at most once. -/
theorem nodup_facts_all (pattern : Triple) {facts : List Triple} (h : facts.Nodup) :
    ((all pattern facts).map Match.fact).Nodup := by
  have hsub : ((all pattern facts).map Match.fact).Sublist facts := by
    clear h
    induction facts with
    | nil => exact .slnil
    | cons f rest ih =>
      rw [all, List.filterMap_cons]
      split
      · exact ih.cons f
      · rename_i m hm
        rw [List.map_cons, (of?_eq_some_iff.mp hm).1]
        exact ih.cons_cons f
  exact hsub.nodup h

end Match

namespace Instantiation

theorem join_eq_some_iff {i j : Instantiation} {m : Match} :
    i.join m = some j ↔
      j.support = i.support ++ [m.fact] ∧ i.binding.merge m.binding = some j.binding := by
  obtain ⟨s, b⟩ := j
  simp only [join, Option.map_eq_some_iff, Instantiation.mk.injEq]
  constructor
  · rintro ⟨c, hc, rfl, rfl⟩
    exact ⟨rfl, hc⟩
  · rintro ⟨rfl, hb⟩
    exact ⟨b, hb, rfl, rfl⟩

end Instantiation

/-- What one more step makes of the instances so far. -/
def PlanStep.advance (r : Registry) (facts : List Triple) (is : List Instantiation) :
    PlanStep → List Instantiation
  | .pattern t => is.flatMap fun i => (Match.all t facts).filterMap i.join
  | .builtin t =>
    is.filter fun i => Network.testBuiltin r (Network.predicateName t.predicate) t i.binding

/-- All instances of a plan. -/
def instances (r : Registry) (facts : List Triple) (steps : List PlanStep) : List Instantiation :=
  steps.foldl (PlanStep.advance r facts) [{}]

section
variable {r : Registry} {facts : List Triple} {steps : List PlanStep}

theorem instances_snoc (step : PlanStep) :
    instances r facts (steps ++ [step]) = step.advance r facts (instances r facts steps) := by
  rw [instances, List.foldl_append]
  rfl

/-- **The instances of a plan are the matches of its atoms.** -/
theorem mem_instances (h : Evaluable r steps) (i : Instantiation) :
    i ∈ instances r facts steps ↔
      (∀ t ∈ i.support, t ∈ facts) ∧ Matches r (PlanStep.atoms steps) i.support i.binding := by
  induction h generalizing i with
  | nil =>
    show i ∈ [{}] ↔ _
    rw [List.mem_singleton]
    constructor
    · rintro rfl
      exact ⟨fun t ht => absurd ht List.not_mem_nil, Matches.empty r⟩
    · rintro ⟨_, h⟩
      obtain ⟨support, binding⟩ := i
      have hsupport : support = [] := List.forall₂_nil_left_iff.mp h.facts
      subst hsupport
      have hbinding : binding = ∅ := h.binding_unique (Matches.empty r)
      subst hbinding
      rfl
  | @pattern steps t hsteps ht ih =>
    rw [instances_snoc, PlanStep.atoms_append]
    show i ∈ (instances r facts steps).flatMap _ ↔ _
    simp only [List.mem_flatMap, List.mem_filterMap, Match.mem_all, Instantiation.join_eq_some_iff, ih]
    constructor
    · rintro ⟨j, ⟨hjfacts, hj⟩, m, ⟨hmfact, hm⟩, hsupport, hbinding⟩
      refine ⟨fun u hu => ?_, hsupport ▸ hj.snoc_pattern ht hm hbinding⟩
      rw [hsupport] at hu
      rcases List.mem_append.mp hu with hu | hu
      · exact hjfacts u hu
      · rw [List.mem_singleton.mp hu]
        exact hmfact
    · rintro ⟨hfacts, h⟩
      obtain ⟨s, fact, b, c, hsupport, hs, hc, hbinding⟩ :=
        h.exists_of_snoc_pattern ht hsteps.tests_bound
      rw [hsupport] at hfacts
      exact ⟨⟨s, b⟩, ⟨fun u hu => hfacts u (List.mem_append_left _ hu), hs⟩, ⟨fact, c⟩,
        ⟨hfacts fact (by simp), hc⟩, hsupport, hbinding⟩
  | @builtin steps t hsteps ht _ _ ih =>
    rw [instances_snoc, PlanStep.atoms_append]
    show i ∈ (instances r facts steps).filter _ ↔ _
    rw [List.mem_filter, ih, testBuiltin_iff ht, and_assoc]
    exact and_congr_right fun _ => (Matches.snoc_test_iff ht).symm

/-- No two instances have the same support. -/
theorem nodup_support_instances (h : Evaluable r steps) (hfacts : facts.Nodup) :
    ((instances r facts steps).map Instantiation.support).Nodup := by
  induction h with
  | nil => simp [instances]
  | @pattern steps t hsteps ht ih =>
    rw [instances_snoc]
    show (((instances r facts steps).flatMap fun i => _).map _).Nodup
    rw [List.map_flatMap, List.nodup_flatMap]
    constructor
    · intro i _
      have hsupport : ((Match.all t facts).filterMap i.join).map Instantiation.support =
          (((Match.all t facts).filter fun m => (i.join m).isSome).map Match.fact).map
            fun f => i.support ++ [f] := by
        generalize Match.all t facts = ms
        induction ms with
        | nil => rfl
        | cons m rest ihm =>
          cases hm : i.join m with
          | none => simp [hm, ihm]
          | some j => simp [hm, ihm, (Instantiation.join_eq_some_iff.mp hm).1]
      rw [hsupport]
      refine List.Nodup.map (fun f g h => by simpa using h) ?_
      exact (Match.nodup_facts_all t hfacts).sublist (List.filter_sublist.map _)
    · refine (List.pairwise_map.mp ih).imp fun {i j} hij s hi hj => hij ?_
      obtain ⟨i', hi', rfl⟩ := List.mem_map.mp hi
      obtain ⟨j', hj', hs⟩ := List.mem_map.mp hj
      obtain ⟨m, _, hm⟩ := List.mem_filterMap.mp hi'
      obtain ⟨n, _, hn⟩ := List.mem_filterMap.mp hj'
      rw [(Instantiation.join_eq_some_iff.mp hm).1, (Instantiation.join_eq_some_iff.mp hn).1] at hs
      exact (List.append_inj_left' hs rfl).symm
  | @builtin steps t hsteps ht _ _ ih =>
    rw [instances_snoc]
    exact ih.sublist (List.filter_sublist.map _)

end

end HornReasoner
