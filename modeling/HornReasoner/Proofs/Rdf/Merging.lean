import HornReasoner.Proofs.Rdf.Binding
import Mathlib.Order.Bounds.Basic

/-! The laws of merging.

A binding stands below those that extend it. In this order merging takes least upper bounds,
of two bindings (`merge_eq_some_iff`) and of any number in turn (`foldlM_merge_eq_some_iff`),
and fails just where there is no upper bound. A least upper bound does not depend on which
binding is first or on where the brackets stand, so neither does merging (`merge_laws`). -/
namespace HornReasoner.Binding

/-- A binding is below those that extend it. -/
instance : PartialOrder Binding where
  le a b := b.Extends a
  le_refl _ _ _ h := h
  le_trans _ _ _ hab hbc := hbc.trans hab
  le_antisymm a b hab hba := SortedMap.ext_get? fun v => Option.ext fun t => ⟨hab v t, hba v t⟩

variable {a b m : Binding}

/-- **Merging finds the least binding that extends both, if any does.** -/
theorem merge_eq_some_iff : a.merge b = some m ↔ IsLUB {a, b} m := by
  constructor
  · intro h
    constructor
    · rw [upperBounds_insert, upperBounds_singleton]
      exact ⟨merge_extends_left h, merge_extends_right h⟩
    · intro d hd
      rw [upperBounds_insert, upperBounds_singleton] at hd
      obtain ⟨least, hleast, hle⟩ := exists_merge (c := d) hd.1 hd.2
      cases h.symm.trans hleast
      exact hle
  · intro h
    have ha : m.Extends a := h.1 (Set.mem_insert a {b})
    have hb : m.Extends b := h.1 (Set.mem_insert_of_mem a rfl)
    obtain ⟨least, hleast, hle⟩ := exists_merge ha hb
    have hupper : least ∈ upperBounds {a, b} := by
      rw [upperBounds_insert, upperBounds_singleton]
      exact ⟨merge_extends_left hleast, merge_extends_right hleast⟩
    have heq : least = m := le_antisymm hle (h.2 hupper)
    rw [hleast, heq]

/-- Merging one binding after the other into `a` takes the least upper bound of all of them. -/
theorem foldlM_merge_eq_some_iff {bs : List Binding} :
    bs.foldlM merge a = some m ↔ IsLUB (insert a {b | b ∈ bs}) m := by
  induction bs generalizing a with
  | nil =>
    have hnone : {b : Binding | b ∈ []} = ∅ :=
      Set.eq_empty_of_forall_notMem fun _ => List.not_mem_nil
    rw [hnone, insert_empty_eq]
    exact ⟨fun h => Option.some.inj h ▸ isLUB_singleton,
      fun h => congrArg some (isLUB_singleton.unique h)⟩
  | cons b rest ih =>
    have hcons : {c | c ∈ b :: rest} = insert b {c | c ∈ rest} := by
      ext c
      simp
    -- the first two have the same upper bounds as what they merge into
    have hstep : ∀ c, IsLUB {a, b} c →
        upperBounds (insert c {d | d ∈ rest}) = upperBounds (insert a {d | d ∈ b :: rest}) := by
      intro c hc
      rw [upperBounds_insert, ← hc.upperBounds_eq, hcons, upperBounds_insert, upperBounds_insert,
        upperBounds_insert, upperBounds_singleton, Set.inter_assoc]
    rw [List.foldlM_cons, Option.bind_eq_bind, Option.bind_eq_some_iff]
    constructor
    · rintro ⟨c, hc, h⟩
      have h : IsLeast _ m := ih.mp h
      rw [hstep c (merge_eq_some_iff.mp hc)] at h
      exact h
    · intro h
      have ha : m.Extends a := h.1 (Set.mem_insert a _)
      have hb : m.Extends b := h.1 (Set.mem_insert_of_mem a (List.mem_cons_self ..))
      obtain ⟨c, hc, _⟩ := exists_merge ha hb
      refine ⟨c, hc, ih.mpr ?_⟩
      show IsLeast _ m
      rw [hstep c (merge_eq_some_iff.mp hc)]
      exact h

/-- Lists of the same bindings merge into the same one. -/
theorem foldlM_merge_congr {as bs : List Binding} (h : ∀ c, c ∈ a :: as ↔ c ∈ b :: bs) :
    as.foldlM merge a = bs.foldlM merge b := by
  have hset : insert a {c | c ∈ as} = insert b {c | c ∈ bs} := by
    ext c
    simpa using h c
  refine Option.ext fun m => ?_
  rw [foldlM_merge_eq_some_iff, foldlM_merge_eq_some_iff, hset]

theorem merge_comm (a b : Binding) : a.merge b = b.merge a := by
  refine Option.ext fun m => ?_
  rw [merge_eq_some_iff, merge_eq_some_iff, Set.pair_comm]

theorem merge_assoc (a b c : Binding) :
    (a.merge b).bind (·.merge c) = (b.merge c).bind (a.merge ·) := by
  have hfold : ∀ a b c : Binding, (a.merge b).bind (·.merge c) = [b, c].foldlM merge a := by
    intro a b c
    simp [Option.bind_eq_bind]
  calc (a.merge b).bind (·.merge c)
    _ = [b, c].foldlM merge a := hfold a b c
    _ = [c, a].foldlM merge b := foldlM_merge_congr fun d => by simp only [List.mem_cons]; tauto
    _ = (b.merge c).bind (·.merge a) := (hfold b c a).symm
    _ = (b.merge c).bind (a.merge ·) := by simp only [merge_comm a]

/-- **Bindings are a partial commutative idempotent monoid under merging**, which is defined just
where the two agree, and then the least binding that extends both. -/
theorem merge_laws (a b c : Binding) :
    a.merge b = b.merge a ∧ a.merge ∅ = some a ∧ (∅ : Binding).merge a = some a ∧
      a.merge a = some a ∧ (a.merge b).bind (·.merge c) = (b.merge c).bind (a.merge ·) ∧
      (a.merge b).isSome = a.agreesWith b ∧ a.agreesWith b = b.agreesWith a ∧
      ∀ m, a.merge b = some m ↔ IsLUB {a, b} m := by
  have hself : IsLUB {a, a} a := by
    rw [Set.pair_eq_singleton]
    exact isLUB_singleton
  refine ⟨merge_comm a b, ?_, empty_merge a, merge_eq_some_iff.mpr hself, merge_assoc a b c,
    isSome_merge a b, ?_, fun m => merge_eq_some_iff⟩
  · rw [merge_comm, empty_merge]
  · rw [← isSome_merge, ← isSome_merge, merge_comm]

end HornReasoner.Binding
