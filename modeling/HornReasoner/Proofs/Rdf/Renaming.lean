import HornReasoner.Proofs.Rdf.Binding
import Mathlib.Logic.Function.Basic

/-! Renaming terms.

A renaming of blank nodes acts on triples position by position and on bindings value by
value. The two fit: the instance of a pattern under a renamed binding is the renamed instance,
if the pattern's own terms stay (`Triple.substitute_rename`). -/
namespace HornReasoner

variable {f : Term → Term}

/-- Numbers with the same digits are equal. -/
theorem toString_injective : Function.Injective fun n : Nat => toString n := by
  intro m n h
  have hdigits : Nat.toDigits 10 m = Nat.toDigits 10 n := by
    rw [← Nat.toList_repr, ← Nat.toList_repr]
    exact congrArg String.toList h
  rw [← Nat.ofDigitChars_ten_toDigits (n := m), hdigits, Nat.ofDigitChars_ten_toDigits]

/-- The terms differ at most in the label of a blank node. -/
def Term.Alike (x y : Term) : Prop := x = y ∨ x.isBlank = true ∧ y.isBlank = true

namespace Triple

theorem mem_terms {t : Triple} {x : Term} :
    x ∈ t.terms ↔ x = t.subject ∨ x = t.predicate ∨ x = t.object := by
  simp [terms]

theorem mem_terms_map {t : Triple} {x : Term} : x ∈ (t.map f).terms ↔ ∃ y ∈ t.terms, f y = x := by
  simp [terms, map, eq_comm]

theorem map_eq_self {t : Triple} (h : ∀ x ∈ t.terms, f x = x) : t.map f = t := by
  have hs := h t.subject (mem_terms.mpr (.inl rfl))
  have hp := h t.predicate (mem_terms.mpr (.inr (.inl rfl)))
  have ho := h t.object (mem_terms.mpr (.inr (.inr rfl)))
  simp only [map, hs, hp, ho]

/-- The terms of an instance are those of the pattern and values of the binding. -/
theorem term_of_substitute {b : Binding} {pattern u : Triple} (h : pattern.substitute b = .ok u)
    {x : Term} (hx : x ∈ u.terms) :
    (x ∈ pattern.terms ∧ x.var? = none) ∨ ∃ v, b.get? v = some x := by
  have hone : ∀ {y : Term}, y ∈ pattern.terms → y.resolve b = some x →
      (x ∈ pattern.terms ∧ x.var? = none) ∨ ∃ v, b.get? v = some x := by
    intro y hy hresolve
    cases y with
    | var v => exact .inr ⟨v, hresolve⟩
    | iri s | literal l | blank s =>
      cases hresolve
      exact .inl ⟨hy, rfl⟩
  obtain ⟨hs, hp, ho⟩ := substitute_eq_ok_iff.mp h
  rcases mem_terms.mp hx with rfl | rfl | rfl
  · exact hone (mem_terms.mpr (.inl rfl)) hs
  · exact hone (mem_terms.mpr (.inr (.inl rfl))) hp
  · exact hone (mem_terms.mpr (.inr (.inr rfl))) ho

/-- The value of a variable of a pattern is a term of the instance. -/
theorem value_mem_terms {b : Binding} {pattern u : Triple} (h : pattern.substitute b = .ok u)
    {v : Variable} (hv : v ∈ pattern.vars) {x : Term} (hx : b.get? v = some x) : x ∈ u.terms := by
  have hone : ∀ {y z : Term}, y.var? = some v → y.resolve b = some z → x = z := by
    intro y z hy hresolve
    cases y with
    | var w =>
      cases hy
      exact Option.some.inj (hx.symm.trans hresolve)
    | iri s | literal l | blank s => cases hy
  obtain ⟨hs, hp, ho⟩ := substitute_eq_ok_iff.mp h
  rw [mem_terms]
  exact (mem_vars.mp hv).imp (hone · hs) (Or.imp (hone · hp) (hone · ho))

end Triple

namespace Binding

/-- The binding with every value renamed. -/
def rename (f : Term → Term) (b : Binding) : Binding :=
  (∅ : Binding).insertAllIfNew (b.toList.map fun e => (e.1, f e.2))

theorem lookup_map (f : Term → Term) (es : List (Variable × Term)) (v : Variable) :
    SortedMap.lookup v (es.map fun e => (e.1, f e.2)) = (SortedMap.lookup v es).map f := by
  induction es with
  | nil => rfl
  | cons e rest ih =>
    rw [List.map_cons, SortedMap.lookup, SortedMap.lookup, ih]
    split <;> rfl

theorem get?_rename (f : Term → Term) (b : Binding) (v : Variable) :
    (b.rename f).get? v = (b.get? v).map f := by
  rw [rename, SortedMap.get?_insertAllIfNew, SortedMap.get?_empty, Option.none_or, lookup_map]
  rfl

end Binding

/-- Renaming the values of a binding renames the instances. -/
theorem Triple.substitute_rename {b c : Binding} (hc : ∀ v, c.get? v = (b.get? v).map f)
    {pattern u : Triple} (hpattern : ∀ x ∈ pattern.terms, x.var? = none → f x = x)
    (h : pattern.substitute b = .ok u) : pattern.substitute c = .ok (u.map f) := by
  have hone : ∀ {x y : Term}, x ∈ pattern.terms → x.resolve b = some y →
      x.resolve c = some (f y) := by
    intro x y hx hresolve
    cases x with
    | var v => exact (hc v).trans (congrArg (Option.map f) hresolve)
    | iri s | literal l | blank s =>
      cases hresolve
      exact congrArg some (hpattern _ hx rfl).symm
  obtain ⟨hs, hp, ho⟩ := substitute_eq_ok_iff.mp h
  exact substitute_eq_ok_iff.mpr ⟨hone (mem_terms.mpr (.inl rfl)) hs,
    hone (mem_terms.mpr (.inr (.inl rfl))) hp, hone (mem_terms.mpr (.inr (.inr rfl))) ho⟩

end HornReasoner
