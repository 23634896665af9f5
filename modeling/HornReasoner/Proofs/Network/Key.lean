import HornReasoner.Network.Key
import HornReasoner.Proofs.Rdf.Binding

/-! The key of a pattern tests no more than the pattern does: a fact that is an instance
of the pattern passes. -/
namespace HornReasoner

namespace KeyTerm

/-- The slots hold the values of the variables seen. -/
def Agree (b : Binding) (seen : List Variable) (slots : List Term) : Prop :=
  seen.map b.get? = slots.map some

/-- The slot of a variable holds its value. -/
theorem Agree.getElem? {b : Binding} {seen : List Variable} {slots : List Term}
    (h : Agree b seen slots) {i : Nat} {v : Variable} (hv : seen[i]? = some v) {t : Term}
    (ht : b.get? v = some t) : slots[i]? = some t := by
  have hi := congrArg (fun values => values[i]?) h
  rw [List.getElem?_map, List.getElem?_map, hv, Option.map_some, ht] at hi
  obtain ⟨u, hu, heq⟩ := Option.map_eq_some_iff.mp hi.symm
  cases heq
  exact hu

theorem Agree.snoc {b : Binding} {seen : List Variable} {slots : List Term} (h : Agree b seen slots)
    {v : Variable} {t : Term} (ht : b.get? v = some t) : Agree b (seen ++ [v]) (slots ++ [t]) := by
  rw [Agree, List.map_append, List.map_append, h, List.map_singleton, ht, List.map_singleton]

theorem Agree.length_eq {b : Binding} {seen : List Variable} {slots : List Term}
    (h : Agree b seen slots) : seen.length = slots.length := by
  have hlength := congrArg List.length h
  rw [List.length_map, List.length_map] at hlength
  exact hlength

theorem getElem?_of_idxOf? {seen : List Variable} {v : Variable} {i : Nat}
    (h : seen.idxOf? v = some i) : seen[i]? = some v := by
  obtain ⟨hlt, heq, _⟩ := List.findIdx?_eq_some_iff_getElem.mp h
  rw [List.getElem?_eq_getElem hlt]
  exact congrArg some (by simpa using heq)

/-- A resolved term passes the test of its key. -/
theorem test?_of {b : Binding} {seen : List Variable} {slots : List Term} (h : Agree b seen slots)
    {x t : Term} (hx : x.resolve b = some t) :
    ∃ slots', (of seen x).1.test? slots t = some slots' ∧ Agree b (of seen x).2 slots' := by
  cases x with
  | var v =>
    cases hv : seen.idxOf? v with
    | some i =>
      have hof : of seen (.var v) = (slot i, seen) := by
        rw [of, hv]
      have hi := getElem?_of_idxOf? hv
      rw [hof]
      exact ⟨slots, by simp [test?, h.getElem? hi hx], h⟩
    | none =>
      have hof : of seen (.var v) = (slot seen.length, seen ++ [v]) := by
        rw [of, hv]
      have hnone : slots[seen.length]? = none :=
        List.getElem?_eq_none (Nat.le_of_eq h.length_eq.symm)
      rw [hof]
      exact ⟨slots ++ [t], by simp [test?, hnone], h.snoc hx⟩
  | iri s | literal l | blank s =>
    cases hx
    exact ⟨slots, by simp [of, test?], h⟩

end KeyTerm

/-- An instance of a pattern passes the pattern's key. -/
theorem AlphaKey.holds_of_substitute {pattern fact : Triple} {b : Binding}
    (h : pattern.substitute b = .ok fact) : (AlphaKey.of pattern).holds fact = true := by
  obtain ⟨hs, hp, ho⟩ := Triple.substitute_eq_ok_iff.mp h
  have hempty : KeyTerm.Agree b [] [] := rfl
  obtain ⟨slots₁, h₁, hagree₁⟩ := KeyTerm.test?_of hempty hs
  obtain ⟨slots₂, h₂, hagree₂⟩ := KeyTerm.test?_of hagree₁ hp
  obtain ⟨slots₃, h₃, _⟩ := KeyTerm.test?_of hagree₂ ho
  simp only [holds, of, Option.bind_eq_bind, h₁, h₂, h₃, Option.bind_some, Option.isSome_some]

/-- A fact that passes a key with a constant predicate has that predicate. -/
theorem AlphaKey.predicate_of_holds {key : AlphaKey} {fact : Triple} (h : key.holds fact = true)
    {t : Term} (ht : key.predicate? = some t) : fact.predicate = t := by
  obtain ⟨s, p, o⟩ := key
  cases p with
  | slot i => cases ht
  | constant u =>
    cases ht
    simp only [holds, Option.bind_eq_bind, Option.isSome_iff_exists, Option.bind_eq_some_iff] at h
    obtain ⟨_, slots₁, _, slots₂, h₂, _⟩ := h
    by_contra hne
    rw [KeyTerm.test?, if_neg (Ne.symm hne)] at h₂
    cases h₂

end HornReasoner
