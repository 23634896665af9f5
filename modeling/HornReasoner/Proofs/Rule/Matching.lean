import HornReasoner.Proofs.Rdf.Binding
import HornReasoner.Rule.Builtin
import HornReasoner.Rule.Horn
import Mathlib.Data.List.Forall2
import Mathlib.Data.Set.Basic

/-! When a rule applies.

A body holds of a list of facts, one for each atom that is no built-in test, under a
binding of exactly those atoms' variables (`Matches`). A set of triples is closed under
a rule if every assignment that makes the body true in it makes the head true in it
(`HornRule.ClosedIn`). The two meet in `matches_assign` and `Matches.closed`. -/
namespace HornReasoner

/-- The term with its variable replaced by a value. -/
def Term.assign (σ : Variable → Term) : Term → Term
  | .var v => σ v
  | t => t

/-- The triple with every variable replaced by its value. -/
def Triple.assign (σ : Variable → Term) (t : Triple) : Triple := t.map (Term.assign σ)

namespace Registry

/-- The atom names a built-in, so it is tested and matches no fact. -/
def isTest (r : Registry) (atom : Triple) : Bool := r.tests atom.predicate

/-- The atoms that match facts. -/
def patterns (r : Registry) (atoms : List Triple) : List Triple :=
  atoms.filter fun atom => !r.isTest atom

/-- The built-in named by the predicate holds of subject and object. -/
def holds (r : Registry) (t : Triple) : Bool :=
  t.predicate.iri?.any fun iri => r.evaluate iri t.subject t.object

/-- The variables that facts give a value to. -/
def boundVars (r : Registry) (atoms : List Triple) : List Variable :=
  (r.patterns atoms).flatMap Triple.vars

theorem patterns_append (r : Registry) (as bs : List Triple) :
    r.patterns (as ++ bs) = r.patterns as ++ r.patterns bs := List.filter_append ..

theorem boundVars_append (r : Registry) (as bs : List Triple) :
    r.boundVars (as ++ bs) = r.boundVars as ++ r.boundVars bs := by
  rw [boundVars, patterns_append, List.flatMap_append]
  rfl

theorem patterns_of_isTest {r : Registry} {atom : Triple} (h : r.isTest atom = true) :
    r.patterns [atom] = [] := by
  simp [patterns, h]

theorem patterns_of_not_isTest {r : Registry} {atom : Triple} (h : r.isTest atom = false) :
    r.patterns [atom] = [atom] := by
  simp [patterns, h]

theorem patterns_snoc_test {r : Registry} {atom : Triple} (htest : r.isTest atom = true)
    (atoms : List Triple) : r.patterns (atoms ++ [atom]) = r.patterns atoms := by
  rw [patterns_append, patterns_of_isTest htest, List.append_nil]

theorem patterns_snoc_pattern {r : Registry} {atom : Triple} (hatom : r.isTest atom = false)
    (atoms : List Triple) : r.patterns (atoms ++ [atom]) = r.patterns atoms ++ [atom] := by
  rw [patterns_append, patterns_of_not_isTest hatom]

/-- A predicate that is no name of a standard built-in is matched. -/
theorem standard_isTest {atom : Triple}
    (h : ∀ iri, atom.predicate.iri? = some iri → iri ∉ Builtin.standard.map Prod.fst) :
    standard.isTest atom = false := by
  refine Bool.eq_false_iff.mpr fun hnamed => ?_
  obtain ⟨iri, hiri, hcontains⟩ := (Option.any_eq_true _ _).mp hnamed
  obtain ⟨test, htest⟩ := (SortedMap.contains_iff standard).mp hcontains
  exact h iri hiri (List.mem_map.mpr ⟨_, SortedMap.mem_of_get?_ofList htest, rfl⟩)

end Registry

/-- The atoms hold of the facts `support`, one for each pattern in order, under a binding
of the patterns' variables that passes the tests. -/
structure Matches (r : Registry) (atoms support : List Triple) (b : Binding) : Prop where
  facts : List.Forall₂ (fun atom fact => atom.substitute b = .ok fact) (r.patterns atoms) support
  tests : ∀ atom ∈ atoms, r.isTest atom = true →
    ∃ t, atom.substitute b = .ok t ∧ r.holds t = true
  domain : ∀ v, b.contains v = true ↔ v ∈ r.boundVars atoms

/-- Every assignment that makes the body true in `S` makes the head true in `S`. -/
def HornRule.ClosedIn (r : Registry) (rule : HornRule) (S : Set Triple) : Prop :=
  ∀ σ : Variable → Term,
    (∀ atom ∈ rule.body,
      if r.isTest atom = true then r.holds (atom.assign σ) = true else atom.assign σ ∈ S) →
    ∀ atom ∈ rule.head, atom.assign σ ∈ S

/-! ### Bindings as assignments -/

namespace Binding

/-- The assignment that leaves a variable without a value as it is. -/
def toAssignment (b : Binding) (v : Variable) : Term := (b.get? v).getD (.var v)

/-- The binding of `vs` to their values. -/
def ofAssignment (σ : Variable → Term) (vs : List Variable) : Binding :=
  (∅ : Binding).insertAllIfNew (vs.map fun v => (v, σ v))

theorem get?_ofAssignment (σ : Variable → Term) (vs : List Variable) (v : Variable) :
    (ofAssignment σ vs).get? v = if v ∈ vs then some (σ v) else none := by
  rw [ofAssignment, SortedMap.get?_insertAllIfNew, SortedMap.get?_empty, Option.none_or]
  induction vs with
  | nil => rfl
  | cons w rest ih =>
    rw [List.map_cons, SortedMap.lookup, ih]
    by_cases hvw : v = w
    · subst hvw
      simp
    · simp [hvw]

theorem contains_ofAssignment (σ : Variable → Term) (vs : List Variable) (v : Variable) :
    (ofAssignment σ vs).contains v = true ↔ v ∈ vs := by
  rw [SortedMap.contains_iff, get?_ofAssignment]
  by_cases h : v ∈ vs <;> simp [h]

end Binding

theorem Term.resolve_eq_assign {σ : Variable → Term} {b : Binding} {x : Term}
    (h : ∀ v, x.var? = some v → b.get? v = some (σ v)) : x.resolve b = some (x.assign σ) := by
  cases x with
  | var v => exact h v rfl
  | iri s => rfl
  | literal l => rfl
  | blank s => rfl

/-- A binding that follows an assignment on a triple's variables has the same instance. -/
theorem Triple.substitute_eq_assign {σ : Variable → Term} {b : Binding} {t : Triple}
    (h : ∀ v ∈ t.vars, b.get? v = some (σ v)) : t.substitute b = .ok (t.assign σ) :=
  substitute_eq_ok_iff.mpr
    ⟨Term.resolve_eq_assign fun v hv => h v (mem_vars.mpr (.inl hv)),
      Term.resolve_eq_assign fun v hv => h v (mem_vars.mpr (.inr (.inl hv))),
      Term.resolve_eq_assign fun v hv => h v (mem_vars.mpr (.inr (.inr hv)))⟩

theorem Triple.assign_toAssignment {b : Binding} {t u : Triple} (h : t.substitute b = .ok u) :
    t.assign b.toAssignment = u := by
  have hbound := exists_substitute_iff.mp ⟨u, h⟩
  have heq : t.substitute b = .ok (t.assign b.toAssignment) := by
    refine substitute_eq_assign fun v hv => ?_
    obtain ⟨w, hw⟩ := (SortedMap.contains_iff b).mp (hbound v hv)
    rw [hw, Binding.toAssignment, hw, Option.getD_some]
  exact Except.ok.inj (heq.symm.trans h)

/-- The instance depends on the values of a triple's variables. -/
theorem Triple.assign_congr {σ τ : Variable → Term} {t : Triple} (h : ∀ v ∈ t.vars, τ v = σ v) :
    t.assign τ = t.assign σ := by
  have hterm : ∀ x ∈ t.terms, x.assign τ = x.assign σ := by
    intro x hx
    cases x with
    | var v => exact h v (List.mem_filterMap.mpr ⟨_, hx, rfl⟩)
    | iri s | literal l | blank s => rfl
  simp only [Triple.terms, List.forall_mem_cons] at hterm
  obtain ⟨hs, hp, ho, _⟩ := hterm
  rw [Triple.assign, Triple.map, hs, hp, ho]
  rfl

/-- A triple with a variable has as many instances as the variable has values. -/
theorem Triple.assign_injective {t : Triple} {x : Variable} (hx : x ∈ t.vars) :
    Function.Injective fun y => t.assign fun _ => y := by
  have hterm : ∀ {u : Term} {y : Term}, u.var? = some x → u.assign (fun _ => y) = y := by
    intro u y hu
    cases u with
    | var v => rfl
    | iri s | literal l | blank s => cases hu
  intro y y' heq
  rcases Triple.mem_vars.mp hx with h | h | h
  · exact (hterm h).symm.trans ((congrArg Triple.subject heq).trans (hterm h))
  · exact (hterm h).symm.trans ((congrArg Triple.predicate heq).trans (hterm h))
  · exact (hterm h).symm.trans ((congrArg Triple.object heq).trans (hterm h))

/-! ### Matches -/

namespace Matches
variable {r : Registry} {atoms support : List Triple} {b : Binding}

theorem empty (r : Registry) : Matches r [] [] ∅ where
  facts := .nil
  tests := by simp
  domain := by simp [SortedMap.contains_iff, SortedMap.get?_empty, Registry.boundVars,
    Registry.patterns]

/-- Facts fix the binding. -/
theorem binding_unique {c : Binding} (hb : Matches r atoms support b)
    (hc : Matches r atoms support c) : b = c := by
  have hvalue : ∀ (ps ts : List Triple),
      List.Forall₂ (fun p t => p.substitute b = .ok t) ps ts →
      List.Forall₂ (fun p t => p.substitute c = .ok t) ps ts →
      ∀ v ∈ ps.flatMap Triple.vars, b.get? v = c.get? v := by
    intro ps ts hps
    induction hps with
    | nil => simp
    | @cons p t ps ts hp _ ih =>
      intro hqs v hv
      obtain ⟨hq, hqs⟩ := List.forall₂_cons.mp hqs
      rcases List.mem_append.mp (List.flatMap_cons ▸ hv) with hv | hv
      · obtain ⟨hs, hpred, ho⟩ := Triple.substitute_eq_ok_iff.mp hp
        obtain ⟨hs', hpred', ho'⟩ := Triple.substitute_eq_ok_iff.mp hq
        have hres : ∀ {x : Term} {u : Term}, x.var? = some v → x.resolve b = some u →
            x.resolve c = some u → b.get? v = c.get? v := by
          intro x u hx hxb hxc
          cases x with
          | var w =>
            cases hx
            exact hxb.trans hxc.symm
          | iri s | literal l | blank s => cases hx
        rcases Triple.mem_vars.mp hv with hv | hv | hv
        · exact hres hv hs hs'
        · exact hres hv hpred hpred'
        · exact hres hv ho ho'
      · exact ih hqs v hv
  refine SortedMap.ext_get? fun v => ?_
  by_cases hv : v ∈ r.boundVars atoms
  · exact hvalue _ _ hb.facts hc.facts v hv
  · have hnone : ∀ {d : Binding}, Matches r atoms support d → d.get? v = none := by
      intro d hd
      refine Option.eq_none_iff_forall_ne_some.mpr fun t ht => hv ?_
      exact (hd.domain v).mp ((SortedMap.contains_iff d).mpr ⟨t, ht⟩)
    rw [hnone hb, hnone hc]

/-- An atom that is no test has its fact. -/
theorem exists_fact (h : Matches r atoms support b) {atom : Triple} (hatom : atom ∈ r.patterns atoms) :
    ∃ t ∈ support, atom.substitute b = .ok t := by
  obtain ⟨hfacts, _, _⟩ := h
  generalize r.patterns atoms = ps at hatom hfacts
  induction hfacts with
  | nil => cases hatom
  | cons hp _ ih =>
    rcases List.mem_cons.mp hatom with rfl | hatom
    · exact ⟨_, List.mem_cons_self .., hp⟩
    · obtain ⟨t, ht, hp⟩ := ih hatom
      exact ⟨t, List.mem_cons_of_mem _ ht, hp⟩

/-- In a set closed under a rule, what the rule concludes from members is a member. -/
theorem closed {rule : HornRule} {S : Set Triple} (h : Matches r rule.body support b)
    (hclosed : rule.ClosedIn r S) (hsupport : ∀ t ∈ support, t ∈ S) {atom t : Triple}
    (hatom : atom ∈ rule.head) (ht : atom.substitute b = .ok t) : t ∈ S := by
  rw [← Triple.assign_toAssignment ht]
  refine hclosed b.toAssignment (fun a ha => ?_) atom hatom
  split
  · rename_i htest
    obtain ⟨u, hu, hholds⟩ := h.tests a ha htest
    rw [Triple.assign_toAssignment hu]
    exact hholds
  · rename_i htest
    obtain ⟨u, hu, hinstance⟩ := h.exists_fact (List.mem_filter.mpr ⟨ha, by simpa using htest⟩)
    rw [Triple.assign_toAssignment hinstance]
    exact hsupport u hu

end Matches

/-- An assignment that makes the atoms true is a match with the patterns' instances, if patterns
bind all that is tested. -/
theorem matches_assign {r : Registry} {atoms : List Triple} {S : Set Triple} (σ : Variable → Term)
    (htests : ∀ atom ∈ atoms, r.isTest atom = true → ∀ v ∈ atom.vars, v ∈ r.boundVars atoms)
    (htrue : ∀ atom ∈ atoms,
      if r.isTest atom = true then r.holds (atom.assign σ) = true else atom.assign σ ∈ S) :
    (∀ t ∈ (r.patterns atoms).map (Triple.assign σ), t ∈ S) ∧
      Matches r atoms ((r.patterns atoms).map (Triple.assign σ))
        (Binding.ofAssignment σ (r.boundVars atoms)) := by
  have hget : ∀ v ∈ r.boundVars atoms,
      (Binding.ofAssignment σ (r.boundVars atoms)).get? v = some (σ v) := by
    intro v hv
    rw [Binding.get?_ofAssignment, if_pos hv]
  refine ⟨?_, ?_, ?_, ?_⟩
  · intro t ht
    obtain ⟨atom, hatom, rfl⟩ := List.mem_map.mp ht
    obtain ⟨hmem, hpattern⟩ := List.mem_filter.mp hatom
    have := htrue atom hmem
    rwa [if_neg (by simpa using hpattern)] at this
  · refine List.forall₂_map_right_iff.mpr (List.forall₂_same.mpr fun atom hatom => ?_)
    exact Triple.substitute_eq_assign fun v hv =>
      hget v (List.mem_flatMap.mpr ⟨atom, hatom, hv⟩)
  · intro atom hatom htest
    refine ⟨atom.assign σ, Triple.substitute_eq_assign fun v hv =>
      hget v (htests atom hatom htest v hv), ?_⟩
    have := htrue atom hatom
    rwa [if_pos htest] at this
  · exact fun v => Binding.contains_ofAssignment σ _ v

end HornReasoner
