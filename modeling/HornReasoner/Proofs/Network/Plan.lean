import HornReasoner.Proofs.Network.Instances

/-! Plans keep the meaning of bodies.

The planner moves built-ins behind the patterns that bind them and leaves out those it
decides itself. The patterns stay in their order, so a body and its plan have the same
matches (`matches_plan_iff`), and a body whose plan is found leaves no variable of a
test open. -/
namespace HornReasoner

/-- Steps so far for the atoms read so far. -/
structure Planning.Covers (r : Registry) (p : Planning) (atoms : List Triple) : Prop where
  evaluable : Evaluable r p.steps
  patterns : r.patterns (PlanStep.atoms p.steps) = r.patterns atoms
  bound : p.bound = r.boundVars atoms
  waiting : ∀ atom ∈ p.waiting, r.isTest atom = true ∧ atom.hasVariables = true
  within : ∀ atom ∈ PlanStep.atoms p.steps ++ p.waiting, atom ∈ atoms
  /-- A test is planned, waits or was found to hold. -/
  kept : ∀ atom ∈ atoms, r.isTest atom = true → atom ∈ PlanStep.atoms p.steps ++ p.waiting ∨
    (atom.hasVariables = false ∧ r.holds atom = true)

namespace Planning
variable {r : Registry} {p p' : Planning} {atoms : List Triple}

theorem Covers.nil (r : Registry) : Covers r {} [] where
  evaluable := .nil
  patterns := rfl
  bound := rfl
  waiting := by simp
  within := by simp [PlanStep.atoms]
  kept := by simp

theorem isReady_iff {bound : List Variable} {atom : Triple} :
    isReady bound atom = true ↔ ∀ v ∈ atom.vars, v ∈ bound := by
  simp [isReady]

/-- Tests of bound variables can follow. -/
theorem evaluable_append {steps : List PlanStep} (h : Evaluable r steps) {ready : List Triple}
    (hready : ∀ t ∈ ready, (r.isTest t = true ∧ t.hasVariables = true) ∧
      ∀ v ∈ t.vars, v ∈ r.boundVars (PlanStep.atoms steps)) :
    Evaluable r (steps ++ ready.map .builtin) := by
  induction ready generalizing steps with
  | nil =>
    rw [List.map_nil, List.append_nil]
    exact h
  | cons t rest ih =>
    obtain ⟨⟨⟨htest, hvars⟩, hbound⟩, hrest⟩ := List.forall_mem_cons.mp hready
    rw [List.map_cons, List.append_cons]
    refine ih (h.builtin htest hvars hbound) fun u hu => ?_
    rw [Evaluable.boundVars_snoc_builtin htest]
    exact hrest u hu

theorem addAtom_eq (r : Registry) (p : Planning) (atom : Triple) : p.addAtom r atom =
    if r.isTest atom then
      if atom.hasVariables then
        .ok (if isReady p.bound atom then { p with steps := p.steps ++ [.builtin atom] }
          else { p with waiting := p.waiting ++ [atom] })
      else if r.holds atom then .ok p else .error (.builtinNeverHolds atom)
    else .ok (p.addPattern atom) := by
  rw [addAtom, builtinPredicate?, Registry.isTest, Registry.tests, Registry.holds]
  cases hiri : atom.predicate.iri? with
  | none => rfl
  | some iri =>
    cases hnamed : r.contains iri with
    | false => simp [Option.filter_some, hnamed]
    | true =>
      cases hvars : atom.hasVariables <;> cases hready : isReady p.bound atom <;>
        simp [Option.filter_some, hnamed, addBuiltin, hvars, hready]

/-- What becomes of a plan with one atom more. -/
inductive Adds (r : Registry) (p : Planning) (atom : Triple) : Planning → Prop where
  | pattern : r.isTest atom = false → Adds r p atom (p.addPattern atom)
  | decided : r.isTest atom = true → atom.hasVariables = false → r.holds atom = true →
      Adds r p atom p
  | tested : r.isTest atom = true → atom.hasVariables = true → isReady p.bound atom = true →
      Adds r p atom { p with steps := p.steps ++ [.builtin atom] }
  | postponed : r.isTest atom = true → atom.hasVariables = true → isReady p.bound atom = false →
      Adds r p atom { p with waiting := p.waiting ++ [atom] }

theorem addAtom_ok {atom : Triple} (hp : p.addAtom r atom = .ok p') : Adds r p atom p' := by
  rw [addAtom_eq] at hp
  cases htest : r.isTest atom with
  | false =>
    simp only [htest, Bool.false_eq_true, if_false, Except.ok.injEq] at hp
    rw [← hp]
    exact .pattern htest
  | true =>
    cases hvars : atom.hasVariables with
    | false =>
      cases hholds : r.holds atom <;> simp [htest, hvars, hholds] at hp
      rw [← hp]
      exact .decided htest hvars hholds
    | true =>
      cases hready : isReady p.bound atom <;> simp [htest, hvars, hready] at hp <;> rw [← hp]
      · exact .postponed htest hvars hready
      · exact .tested htest hvars hready

theorem patterns_of_tests {ts : List Triple} (h : ∀ t ∈ ts, r.isTest t = true) :
    r.patterns ts = [] := by
  refine List.filter_eq_nil_iff.mpr fun t ht => ?_
  simp [h t ht]

/-- One atom more that is planned or waits. -/
theorem Covers.extend (h : Covers r p atoms) {atom : Triple}
    (hplaced : ∀ t, t ∈ PlanStep.atoms p'.steps ++ p'.waiting ↔
      t ∈ PlanStep.atoms p.steps ++ p.waiting ∨ t = atom)
    (hevaluable : Evaluable r p'.steps)
    (hpatterns : r.patterns (PlanStep.atoms p'.steps) = r.patterns (atoms ++ [atom]))
    (hbound : p'.bound = r.boundVars (atoms ++ [atom]))
    (hwaiting : ∀ t ∈ p'.waiting, r.isTest t = true ∧ t.hasVariables = true) :
    Covers r p' (atoms ++ [atom]) where
  evaluable := hevaluable
  patterns := hpatterns
  bound := hbound
  waiting := hwaiting
  within t ht := by
    rw [List.mem_append, List.mem_singleton]
    exact ((hplaced t).mp ht).imp_left (h.within t)
  kept t ht htest := by
    rcases List.mem_append.mp ht with ht | ht
    · exact (h.kept t ht htest).imp_left fun hin => (hplaced t).mpr (.inl hin)
    · exact .inl ((hplaced t).mpr (.inr (List.mem_singleton.mp ht)))

theorem addPattern_eq (p : Planning) (atom : Triple) : p.addPattern atom =
    ⟨p.steps ++ .pattern atom ::
        (p.waiting.filter (isReady (p.bound ++ atom.vars))).map .builtin,
      p.bound ++ atom.vars, p.waiting.filter (not ∘ isReady (p.bound ++ atom.vars))⟩ := by
  rw [addPattern, List.partition_eq_filter_filter]

theorem Covers.addPattern (h : Covers r p atoms) {atom : Triple} (hatom : r.isTest atom = false) :
    Covers r (p.addPattern atom) (atoms ++ [atom]) := by
  rw [addPattern_eq]
  obtain ⟨ready, hready⟩ : ∃ ready, p.waiting.filter (isReady (p.bound ++ atom.vars)) = ready :=
    ⟨_, rfl⟩
  obtain ⟨later, hlater⟩ : ∃ later,
      p.waiting.filter (not ∘ isReady (p.bound ++ atom.vars)) = later := ⟨_, rfl⟩
  rw [hready, hlater]
  have hboundSteps : r.boundVars (PlanStep.atoms (p.steps ++ [.pattern atom])) =
      p.bound ++ atom.vars := by
    rw [Evaluable.boundVars_snoc_pattern hatom, h.bound, Registry.boundVars, h.patterns]
    rfl
  have htests : ∀ t ∈ ready, (r.isTest t = true ∧ t.hasVariables = true) ∧
      ∀ v ∈ t.vars, v ∈ p.bound ++ atom.vars := by
    intro t ht
    rw [← hready, List.mem_filter, isReady_iff] at ht
    exact ⟨h.waiting t ht.1, ht.2⟩
  have hatoms : PlanStep.atoms (p.steps ++ .pattern atom :: ready.map .builtin) =
      PlanStep.atoms p.steps ++ atom :: ready := by
    rw [PlanStep.atoms_append, PlanStep.atoms, PlanStep.atoms, List.map_cons, List.map_map]
    simp [Function.comp_def, PlanStep.triple]
  refine h.extend (fun t => ?_) ?_ ?_ ?_ fun t ht => ?_
  · -- what waited is ready or waits on
    have hsplit : t ∈ p.waiting ↔ t ∈ ready ∨ t ∈ later := by
      rw [← hready, ← hlater, List.mem_filter, List.mem_filter, ← and_or_left]
      simp
    simp only [hatoms, List.mem_append, List.mem_cons, hsplit]
    tauto
  · dsimp only
    rw [List.append_cons]
    refine evaluable_append (h.evaluable.pattern hatom) fun t ht => ?_
    rw [hboundSteps]
    exact htests t ht
  · dsimp only
    rw [hatoms, List.append_cons, Registry.patterns_append, Registry.patterns_append,
      patterns_of_tests fun t ht => (htests t ht).1.1, h.patterns, List.append_nil,
      Registry.patterns_append]
  · dsimp only
    rw [Registry.boundVars_append, h.bound, Registry.boundVars, Registry.boundVars,
      Registry.patterns_of_not_isTest hatom, List.flatMap_singleton]
  · rw [← hlater] at ht
    exact h.waiting t (List.mem_filter.mp ht).1

/-- A test binds nothing. -/
theorem Covers.patterns_test (h : Covers r p atoms) {atom : Triple} (hatom : r.isTest atom = true) :
    r.patterns (PlanStep.atoms p.steps) = r.patterns (atoms ++ [atom]) :=
  h.patterns.trans (Registry.patterns_snoc_test hatom atoms).symm

theorem Covers.bound_test (h : Covers r p atoms) {atom : Triple} (hatom : r.isTest atom = true) :
    p.bound = r.boundVars (atoms ++ [atom]) := by
  rw [h.bound, Registry.boundVars, Registry.boundVars, Registry.patterns_snoc_test hatom]

/-- A test without variables that holds is left out. -/
theorem Covers.decided (h : Covers r p atoms) {atom : Triple} (hatom : r.isTest atom = true)
    (hground : atom.hasVariables = false) (hholds : r.holds atom = true) :
    Covers r p (atoms ++ [atom]) where
  evaluable := h.evaluable
  patterns := h.patterns_test hatom
  bound := h.bound_test hatom
  waiting := h.waiting
  within t ht := List.mem_append_left _ (h.within t ht)
  kept t ht htest := by
    rcases List.mem_append.mp ht with ht | ht
    · exact h.kept t ht htest
    · rw [List.mem_singleton.mp ht]
      exact .inr ⟨hground, hholds⟩

theorem Covers.tested (h : Covers r p atoms) {atom : Triple} (hatom : r.isTest atom = true)
    (hvars : atom.hasVariables = true) (hready : isReady p.bound atom = true) :
    Covers r { p with steps := p.steps ++ [.builtin atom] } (atoms ++ [atom]) := by
  have hatoms : PlanStep.atoms (p.steps ++ [.builtin atom]) = PlanStep.atoms p.steps ++ [atom] :=
    PlanStep.atoms_append ..
  refine h.extend (fun t => ?_) ?_ ?_ (h.bound_test hatom) h.waiting
  · simp only [hatoms, List.mem_append, List.mem_singleton]
    tauto
  · refine h.evaluable.builtin hatom hvars fun v hv => ?_
    have hbound := isReady_iff.mp hready v hv
    rw [h.bound, Registry.boundVars, ← h.patterns] at hbound
    exact hbound
  · dsimp only
    rw [hatoms, Registry.patterns_append, Registry.patterns_append, h.patterns]

theorem Covers.postponed (h : Covers r p atoms) {atom : Triple} (hatom : r.isTest atom = true)
    (hvars : atom.hasVariables = true) :
    Covers r { p with waiting := p.waiting ++ [atom] } (atoms ++ [atom]) := by
  refine h.extend (fun t => ?_) h.evaluable (h.patterns_test hatom) (h.bound_test hatom) ?_
  · simp only [List.mem_append, List.mem_singleton]
    tauto
  · exact List.forall_mem_append.mpr ⟨h.waiting, List.forall_mem_singleton.mpr ⟨hatom, hvars⟩⟩

theorem Covers.addAtom (h : Covers r p atoms) {atom : Triple} (hp : p.addAtom r atom = .ok p') :
    Covers r p' (atoms ++ [atom]) := by
  cases addAtom_ok hp with
  | pattern hatom => exact h.addPattern hatom
  | decided htest hground hholds => exact h.decided htest hground hholds
  | tested htest hvars hready => exact h.tested htest hvars hready
  | postponed htest hvars _ => exact h.postponed htest hvars

/-- What each atom keeps, a body keeps. -/
theorem foldlM_addAtom {C : Planning → List Triple → Prop}
    (step : ∀ {p p' atoms atom}, C p atoms → p.addAtom r atom = .ok p' → C p' (atoms ++ [atom]))
    {body : List Triple} (h : C p atoms) (hp : body.foldlM (Planning.addAtom r) p = .ok p') :
    C p' (atoms ++ body) := by
  induction body generalizing p atoms with
  | nil =>
    cases hp
    rw [List.append_nil]
    exact h
  | cons atom rest ih =>
    rw [List.foldlM_cons] at hp
    cases hfirst : Planning.addAtom r p atom with
    | error fault =>
      rw [hfirst] at hp
      cases hp
    | ok q =>
      rw [hfirst] at hp
      rw [List.append_cons]
      exact ih (step h hfirst) hp

end Planning

section
variable {r : Registry} {body : List Triple} {steps : List PlanStep}

/-- A plan is found if every atom can be added and nothing waits in the end. -/
theorem plan_ok_iff : plan r body = .ok steps ↔ ∃ bound,
    body.foldlM (Planning.addAtom r) {} = .ok ⟨steps, bound, []⟩ := by
  rw [plan]
  cases body.foldlM (Planning.addAtom r) {} with
  | error fault => simp
  | ok p =>
    obtain ⟨steps', bound, waiting⟩ := p
    cases waiting <;> simp

/-- A plan covers the whole body, and nothing waits. -/
theorem covers_of_plan (h : plan r body = .ok steps) :
    ∃ bound, Planning.Covers r ⟨steps, bound, []⟩ body := by
  obtain ⟨bound, hp⟩ := plan_ok_iff.mp h
  exact ⟨bound, Planning.foldlM_addAtom (C := Planning.Covers r) (fun h => h.addAtom) (.nil r) hp⟩

theorem evaluable_of_plan (h : plan r body = .ok steps) : Evaluable r steps := by
  obtain ⟨_, hcovers⟩ := covers_of_plan h
  exact hcovers.evaluable

/-- Patterns bind whatever a body tests. -/
theorem tests_bound_of_plan (h : plan r body = .ok steps) :
    ∀ atom ∈ body, r.isTest atom = true → ∀ v ∈ atom.vars, v ∈ r.boundVars body := by
  obtain ⟨_, hcovers⟩ := covers_of_plan h
  intro atom hatom htest v hv
  rcases hcovers.kept atom hatom htest with hin | ⟨hground, _⟩
  · rw [List.append_nil] at hin
    have hbound := hcovers.evaluable.tests_bound atom hin htest v hv
    rw [Registry.boundVars, hcovers.patterns] at hbound
    exact hbound
  · have hvars := Triple.hasVariables_iff.mpr ⟨v, hv⟩
    rw [hground] at hvars
    cases hvars

/-- Patterns bind all variables of a body. -/
theorem vars_bound_of_plan (h : plan r body = .ok steps) :
    ∀ atom ∈ body, ∀ v ∈ atom.vars, v ∈ r.boundVars body := by
  intro atom hatom v hv
  by_cases htest : r.isTest atom = true
  · exact tests_bound_of_plan h atom hatom htest v hv
  · exact List.mem_flatMap.mpr ⟨atom, List.mem_filter.mpr ⟨hatom, by simpa using htest⟩, hv⟩

/-- A body without tests is planned as it is. -/
theorem plan_of_not_isTest (h : ∀ atom ∈ body, r.isTest atom = false) :
    plan r body = .ok (body.map .pattern) := by
  have hadd : ∀ p : Planning, p.waiting = [] → body.foldlM (Planning.addAtom r) p =
      .ok ⟨p.steps ++ body.map .pattern, p.bound ++ body.flatMap Triple.vars, []⟩ := by
    induction body with
    | nil =>
      rintro ⟨steps, bound, waiting⟩ rfl
      simp [pure, Except.pure]
    | cons atom rest ih =>
      obtain ⟨hatom, hrest⟩ := List.forall_mem_cons.mp h
      intro p hp
      have hfirst : Planning.addAtom r p atom = .ok (p.addPattern atom) := by
        simp [Planning.addAtom_eq, hatom]
      rw [List.foldlM_cons, hfirst, Planning.addPattern_eq, hp]
      refine (ih hrest _ rfl).trans ?_
      simp
  rw [plan, hadd {} rfl]
  simp

theorem substitute_of_ground {t : Triple} (h : t.hasVariables = false) (b : Binding) :
    t.substitute b = .ok t := by
  have hterm : ∀ x ∈ t.terms, x.resolve b = some x := by
    intro x hx
    have hvar := List.any_eq_false.mp h x hx
    cases x with
    | var v => exact absurd rfl hvar
    | iri s | literal l | blank s => rfl
  simp only [Triple.terms, List.forall_mem_cons] at hterm
  exact Triple.substitute_eq_ok_iff.mpr ⟨hterm.1, hterm.2.1, hterm.2.2.1⟩

/-- **A body and its plan have the same matches.** -/
theorem matches_plan_iff (h : plan r body = .ok steps) {support : List Triple} {b : Binding} :
    Matches r body support b ↔ Matches r (PlanStep.atoms steps) support b := by
  obtain ⟨_, hcovers⟩ := covers_of_plan h
  have hpatterns := hcovers.patterns
  have hbound : r.boundVars (PlanStep.atoms steps) = r.boundVars body := by
    rw [Registry.boundVars, Registry.boundVars, hpatterns]
  constructor
  · intro hm
    refine ⟨hpatterns.symm ▸ hm.facts, fun atom hatom => ?_, hbound.symm ▸ hm.domain⟩
    exact hm.tests atom (hcovers.within atom (List.mem_append_left _ hatom))
  · intro hm
    refine ⟨hpatterns ▸ hm.facts, fun atom hatom htest => ?_, hbound ▸ hm.domain⟩
    rcases hcovers.kept atom hatom htest with hin | ⟨hground, hholds⟩
    · rw [List.append_nil] at hin
      exact hm.tests atom hin htest
    · exact ⟨atom, substitute_of_ground hground b, hholds⟩

end

end HornReasoner
