import HornReasoner.Proofs.Rdf.Renaming
import HornReasoner.Proofs.Rule.Matching

/-! Rules do not tell blank nodes apart.

Rules name no blank node, and the standard tests see a blank node's label only where they ask
whether two terms are equal (`Registry.standard_impartial`). So a match stays one when blank
nodes are renamed (`Matches.rename`). -/
namespace HornReasoner

/-! ### Tests -/

/-- The test asks of blank nodes only whether the two are the same. -/
def Builtin.Impartial (test : Builtin) : Prop :=
  ∀ a b a' b' : Term, a.Alike a' → b.Alike b' → (a = b ↔ a' = b') → test a' b' = test a b

def Registry.Impartial (r : Registry) : Prop :=
  ∀ iri test, r.get? iri = some test → Builtin.Impartial test

namespace Term.Alike

variable {x y : Term}

theorem iri?_eq (h : x.Alike y) : y.iri? = x.iri? := by
  rcases h with rfl | ⟨hx, hy⟩
  · rfl
  · cases x <;> cases hx
    cases y <;> cases hy
    rfl

theorem number?_eq (h : x.Alike y) : Builtin.number? y = Builtin.number? x := by
  rcases h with rfl | ⟨hx, hy⟩
  · rfl
  · cases x <;> cases hx
    cases y <;> cases hy
    rfl

theorem text?_eq (h : x.Alike y) : Builtin.text? y = Builtin.text? x := by
  rcases h with rfl | ⟨hx, hy⟩
  · rfl
  · cases x <;> cases hx
    cases y <;> cases hy
    rfl

end Term.Alike

namespace Builtin

theorem onNumbers_impartial (holds : Nat → Nat → Bool) : Impartial (onNumbers holds) := by
  intro a b a' b' ha hb _
  rw [onNumbers, ha.number?_eq, hb.number?_eq, onNumbers]

theorem onTexts_impartial (holds : String → String → Bool) : Impartial (onTexts holds) := by
  intro a b a' b' ha hb _
  rw [onTexts, ha.text?_eq, hb.text?_eq, onTexts]

theorem matches?_impartial (read : Option Bool → Bool) :
    Impartial fun a b => read (matches? a b) := by
  intro a b a' b' ha hb _
  simp only [matches?, ha.text?_eq, hb.text?_eq]

theorem standard_impartial : ∀ e ∈ standard, Impartial e.2 := by
  have hequal : Impartial fun a b => decide (a = b) := fun a b a' b' _ _ hiff =>
    decide_eq_decide.mpr hiff.symm
  have hunequal : Impartial fun a b => decide (a ≠ b) := fun a b a' b' _ _ hiff =>
    decide_eq_decide.mpr (not_congr hiff.symm)
  simp only [standard, List.forall_mem_cons, onNumbers_impartial, onTexts_impartial, hequal,
    hunequal, true_and]
  exact ⟨matches?_impartial (·.getD false), matches?_impartial (·.any not),
    fun e he => absurd he List.not_mem_nil⟩

end Builtin

namespace Registry

theorem standard_impartial : standard.Impartial := by
  intro iri test h
  exact Builtin.standard_impartial _ (SortedMap.mem_of_get?_ofList h)

variable {r : Registry} {f : Term → Term}

/-- Whether a built-in holds does not depend on the labels of blank nodes. -/
theorem Impartial.holds_map (h : r.Impartial) {u : Triple} (halike : ∀ x ∈ u.terms, x.Alike (f x))
    (hinjective : ∀ x ∈ u.terms, ∀ y ∈ u.terms, f x = f y → x = y) :
    r.holds (u.map f) = r.holds u := by
  have hs : u.subject ∈ u.terms := Triple.mem_terms.mpr (.inl rfl)
  have hp : u.predicate ∈ u.terms := Triple.mem_terms.mpr (.inr (.inl rfl))
  have ho : u.object ∈ u.terms := Triple.mem_terms.mpr (.inr (.inr rfl))
  have heval : ∀ iri, r.evaluate iri (f u.subject) (f u.object) =
      r.evaluate iri u.subject u.object := by
    intro iri
    unfold evaluate
    cases htest : r.get? iri with
    | none => rfl
    | some test =>
      exact h iri test htest _ _ _ _ (halike _ hs) (halike _ ho)
        ⟨fun heq => congrArg f heq, hinjective _ hs _ ho⟩
  simp only [holds, Triple.map, (halike _ hp).iri?_eq, heval]

end Registry

/-! ### Matches -/

/-- **A match stays a match when terms are renamed**, if the atoms' own terms stay and tests that
hold go on to hold. -/
theorem Matches.rename {r : Registry} {atoms support : List Triple} {b c : Binding}
    {f : Term → Term} (h : Matches r atoms support b) (hc : ∀ v, c.get? v = (b.get? v).map f)
    (hatoms : ∀ atom ∈ atoms, ∀ x ∈ atom.terms, x.var? = none → f x = x)
    (htests : ∀ u, (∀ x ∈ u.terms, (∃ atom ∈ atoms, x ∈ atom.terms ∧ x.var? = none) ∨
      ∃ v, b.get? v = some x) → r.holds u = true → r.holds (u.map f) = true) : Matches r atoms (support.map (Triple.map f)) c where
  facts := by
    have hpatterns : ∀ atom ∈ r.patterns atoms, ∀ x ∈ atom.terms, x.var? = none → f x = x :=
      fun atom hatom => hatoms atom (List.mem_of_mem_filter hatom)
    have hfacts := (List.forall₂_and_left _ _).mpr ⟨hpatterns, h.facts⟩
    exact List.forall₂_map_right_iff.mpr
      (hfacts.imp fun atom fact ⟨hconstant, hfact⟩ => Triple.substitute_rename hc hconstant hfact)
  tests atom hatom htest := by
    obtain ⟨u, hu, hholds⟩ := h.tests atom hatom htest
    refine ⟨u.map f, Triple.substitute_rename hc (hatoms atom hatom) hu, htests u ?_ hholds⟩
    exact fun x hx => (Triple.term_of_substitute hu hx).imp_left
      fun hin => ⟨atom, hatom, hin⟩
  domain v := by
    rw [← h.domain, SortedMap.contains_iff, SortedMap.contains_iff, hc]
    cases b.get? v <;> simp

/-- The value of a variable comes from a fact. -/
theorem Matches.value_mem {r : Registry} {atoms support : List Triple} {b : Binding}
    (h : Matches r atoms support b) {v : Variable} {x : Term} (hx : b.get? v = some x) :
    ∃ t ∈ support, x ∈ t.terms := by
  have hv := (h.domain v).mp ((SortedMap.contains_iff b).mpr ⟨x, hx⟩)
  obtain ⟨atom, hatom, hv⟩ := List.mem_flatMap.mp hv
  obtain ⟨t, ht, hinstance⟩ := h.exists_fact hatom
  exact ⟨t, ht, Triple.value_mem_terms hinstance hv hx⟩

end HornReasoner
