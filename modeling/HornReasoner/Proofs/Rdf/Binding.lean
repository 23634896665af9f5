import HornReasoner.Proofs.Order.Lookup
import HornReasoner.Rdf.Binding

/-! What matching and joining bind.

The instance of a pattern exists under a binding that gives a value to each of its
variables. Matching finds the least binding under which a pattern is a given fact, and
merging the least one that extends two bindings which agree. -/
namespace HornReasoner

namespace Binding

/-- Whatever `a` binds, `b` binds to the same value. -/
def Extends (b a : Binding) : Prop := ∀ v t, a.get? v = some t → b.get? v = some t

theorem Extends.trans {a b c : Binding} (hcb : c.Extends b) (hba : b.Extends a) : c.Extends a :=
  fun v t h => hcb v t (hba v t h)

theorem extends_empty (b : Binding) : b.Extends ∅ := by
  intro v t h
  cases h

theorem extends_restrict (b : Binding) (vs : List Variable) : Extends b (b.restrict vs) := by
  intro v t h
  rw [SortedMap.get?_restrict] at h
  split at h
  · exact h
  · cases h

end Binding

/-! ### Instances -/

theorem Term.resolve_mono {a b : Binding} (h : b.Extends a) {x t : Term}
    (hx : x.resolve a = some t) : x.resolve b = some t := by
  cases x with
  | var v => exact h v t hx
  | iri s => exact hx
  | literal l => exact hx
  | blank s => exact hx

theorem Term.resolve_isSome (b : Binding) (x : Term) :
    (x.resolve b).isSome = x.var?.all b.contains := by
  cases x <;> rfl

namespace Triple

theorem mem_vars {t : Triple} {v : Variable} :
    v ∈ t.vars ↔ t.subject.var? = some v ∨ t.predicate.var? = some v ∨ t.object.var? = some v := by
  simp [vars, terms, List.mem_filterMap]

theorem unbound_eq_nil_iff (b : Binding) (t : Triple) :
    t.unbound b = [] ↔ ∀ v ∈ t.vars, b.contains v = true := by
  have hnil : ∀ vs : List Variable, vs.eraseDups = [] ↔ vs = [] := by
    intro vs
    cases vs with
    | nil => simp
    | cons v vs => simp [List.eraseDups_cons]
  rw [unbound, hnil, List.filter_eq_nil_iff]
  simp

/-- Position by position: an instance is the pattern with every term resolved. -/
theorem substitute_eq_ok_iff {b : Binding} {t u : Triple} :
    t.substitute b = .ok u ↔ t.subject.resolve b = some u.subject ∧
      t.predicate.resolve b = some u.predicate ∧ t.object.resolve b = some u.object := by
  have hall : t.unbound b = [] ↔ (t.subject.resolve b).isSome ∧ (t.predicate.resolve b).isSome ∧
      (t.object.resolve b).isSome := by
    rw [unbound_eq_nil_iff]
    simp only [Term.resolve_isSome, mem_vars, Option.all_eq_true]
    constructor
    · intro h
      exact ⟨fun v hv => h v (.inl hv), fun v hv => h v (.inr (.inl hv)),
        fun v hv => h v (.inr (.inr hv))⟩
    · rintro ⟨hs, hp, ho⟩ v (hv | hv | hv)
      · exact hs v hv
      · exact hp v hv
      · exact ho v hv
  unfold substitute
  split
  · rename_i hnil
    obtain ⟨hs, hp, ho⟩ := hall.mp hnil
    obtain ⟨s, hs⟩ := Option.isSome_iff_exists.mp hs
    obtain ⟨p, hp⟩ := Option.isSome_iff_exists.mp hp
    obtain ⟨o, ho⟩ := Option.isSome_iff_exists.mp ho
    obtain ⟨us, up, uo⟩ := u
    simp [map, hs, hp, ho]
  · rename_i hne
    refine ⟨fun h => (by cases h), fun ⟨hs, hp, ho⟩ => absurd (hall.mpr ?_) hne⟩
    simp [hs, hp, ho]

theorem exists_substitute_iff {b : Binding} {t : Triple} :
    (∃ u, t.substitute b = .ok u) ↔ ∀ v ∈ t.vars, b.contains v = true := by
  rw [← unbound_eq_nil_iff]
  unfold substitute
  split
  · rename_i h
    simp [h]
  · rename_i h
    exact ⟨fun ⟨_, hu⟩ => (by cases hu), fun hnil => absurd hnil h⟩

theorem substitute_mono {a b : Binding} (h : b.Extends a) {t u : Triple}
    (ht : t.substitute a = .ok u) : t.substitute b = .ok u := by
  rw [substitute_eq_ok_iff] at ht ⊢
  exact ⟨Term.resolve_mono h ht.1, Term.resolve_mono h ht.2.1, Term.resolve_mono h ht.2.2⟩

/-- An instance under a binding is one under the part of it that gives the values. -/
theorem substitute_restrict {b : Binding} {vs : List Variable} {t u : Triple}
    (ht : t.substitute b = .ok u) (hvs : ∀ v ∈ t.vars, v ∈ vs) :
    t.substitute (b.restrict vs) = .ok u := by
  have hbound : ∀ v ∈ t.vars, (b.restrict vs).contains v = true := by
    intro v hv
    obtain ⟨w, hw⟩ := (SortedMap.contains_iff b).mp (exists_substitute_iff.mp ⟨u, ht⟩ v hv)
    refine (SortedMap.contains_iff _).mpr ⟨w, ?_⟩
    rw [SortedMap.get?_restrict, if_pos (hvs v hv), hw]
  obtain ⟨w, hw⟩ := exists_substitute_iff.mpr hbound
  have := substitute_mono (b.extends_restrict vs) hw
  rw [ht] at this
  cases this
  exact hw

end Triple

namespace Binding

/-! ### Merging -/

theorem fitsInto_iff {a b : Binding} :
    a.fitsInto b = true ↔ ∀ v t u, a.get? v = some t → b.get? v = some u → t = u := by
  simp only [fitsInto, List.all_eq_true, Option.all_eq_true, decide_eq_true_eq]
  constructor
  · intro h v t u ha hb
    exact (h (v, t) ((SortedMap.get?_eq_some_iff a).mp ha) u hb).symm
  · rintro h ⟨v, t⟩ hmem u hb
    exact (h v t u ((SortedMap.get?_eq_some_iff a).mpr hmem) hb).symm

theorem agreesWith_iff {a b : Binding} :
    a.agreesWith b = true ↔ ∀ v t u, a.get? v = some t → b.get? v = some u → t = u := by
  rw [agreesWith]
  split
  · exact fitsInto_iff
  · exact fitsInto_iff.trans
      ⟨fun h v t u ht hu => (h v u t hu ht).symm, fun h v t u ht hu => (h v u t hu ht).symm⟩

theorem isSome_merge (a b : Binding) : (a.merge b).isSome = a.agreesWith b := by
  rw [merge]
  split <;> simp [*]

theorem get?_merge {a b c : Binding} (h : a.merge b = some c) (v : Variable) :
    c.get? v = (a.get? v).or (b.get? v) := by
  unfold merge at h
  split at h
  · cases h
    rw [SortedMap.get?_insertAllIfNew]
    rfl
  · cases h

theorem merge_extends_left {a b c : Binding} (h : a.merge b = some c) : c.Extends a := by
  intro v t ha
  rw [get?_merge h, ha]
  rfl

theorem merge_extends_right {a b c : Binding} (h : a.merge b = some c) : c.Extends b := by
  intro v u hb
  rw [get?_merge h]
  cases ha : a.get? v with
  | none => exact hb
  | some t =>
    have hagree : a.agreesWith b = true := by
      unfold merge at h
      split at h
      · assumption
      · cases h
    rw [agreesWith_iff.mp hagree v t u ha hb]
    rfl

theorem contains_merge {a b c : Binding} (h : a.merge b = some c) (v : Variable) :
    c.contains v = true ↔ a.contains v = true ∨ b.contains v = true := by
  simp only [SortedMap.contains_iff, get?_merge h]
  cases a.get? v <;> simp

/-- Two bindings with a common extension merge, and into nothing more than both bind. -/
theorem exists_merge {a b c : Binding} (ha : c.Extends a) (hb : c.Extends b) :
    ∃ d, a.merge b = some d ∧ c.Extends d := by
  have hagree : a.agreesWith b = true := by
    refine agreesWith_iff.mpr fun v t u hat hbu => ?_
    have h := (ha v t hat).symm.trans (hb v u hbu)
    exact Option.some.inj h
  refine ⟨a.insertAllIfNew b.toList, by rw [merge, if_pos hagree], fun v t h => ?_⟩
  rw [SortedMap.get?_insertAllIfNew] at h
  cases hat : a.get? v with
  | none =>
    rw [hat] at h
    exact hb v t h
  | some u =>
    rw [hat] at h
    cases h
    exact ha v t hat

theorem empty_merge (b : Binding) : (∅ : Binding).merge b = some b := by
  obtain ⟨c, hc, _⟩ := exists_merge (extends_empty b) (c := b) fun _ _ h => h
  rw [hc]
  refine congrArg some (SortedMap.ext_get? fun v => ?_)
  rw [get?_merge hc, SortedMap.get?_empty]
  rfl

/-! ### Keys -/

theorem keyFor_eq_some_iff {b : Binding} {vs : List Variable} {ts : List Term} :
    b.keyFor vs = some ts ↔ vs.map b.get? = ts.map some := by
  unfold keyFor
  induction vs generalizing ts with
  | nil => cases ts <;> simp
  | cons v rest ih =>
    rw [List.mapM_cons]
    simp only [Option.bind_eq_bind, Option.bind_eq_some_iff, Option.pure_def, Option.some.injEq, ih,
      List.map_cons]
    constructor
    · rintro ⟨t, ht, ts, hts, rfl⟩
      rw [ht, hts, List.map_cons]
    · intro h
      cases ts with
      | nil => cases h
      | cons t ts =>
        rw [List.map_cons, List.cons.injEq] at h
        exact ⟨t, h.1, ts, h.2, rfl⟩

theorem keyFor_isSome {b : Binding} {vs : List Variable} (h : ∀ v ∈ vs, b.contains v = true) :
    (b.keyFor vs).isSome := by
  induction vs with
  | nil => rfl
  | cons v rest ih =>
    obtain ⟨t, ht⟩ := (SortedMap.contains_iff b).mp (h v (List.mem_cons_self ..))
    obtain ⟨ts, hts⟩ := Option.isSome_iff_exists.mp
      (ih fun w hw => h w (List.mem_cons_of_mem _ hw))
    have : b.keyFor (v :: rest) = some (t :: ts) := by
      rw [keyFor_eq_some_iff] at hts ⊢
      rw [List.map_cons, ht, hts, List.map_cons]
    rw [this]
    rfl

theorem keyFor_mono {a b : Binding} (h : b.Extends a) {vs : List Variable} {ts : List Term}
    (ha : a.keyFor vs = some ts) : b.keyFor vs = some ts := by
  rw [keyFor_eq_some_iff] at ha ⊢
  rw [← ha]
  refine List.map_congr_left fun v hv => ?_
  have hmem : a.get? v ∈ ts.map some := ha ▸ List.mem_map_of_mem hv
  obtain ⟨t, _, ht⟩ := List.mem_map.mp hmem
  rw [← ht]
  exact h v t ht.symm

/-- Bindings with different values for `vs` do not merge. -/
theorem merge_eq_none_of_keyFor_ne {a b : Binding} {vs : List Variable} {j k : List Term}
    (ha : a.keyFor vs = some j) (hb : b.keyFor vs = some k) (hne : j ≠ k) : a.merge b = none := by
  cases hm : a.merge b with
  | none => rfl
  | some c =>
    have hj := keyFor_mono (merge_extends_left hm) ha
    have hk := keyFor_mono (merge_extends_right hm) hb
    exact absurd (Option.some.inj (hj.symm.trans hk)) hne

/-! ### Matching -/

theorem bind_spec {b c : Binding} {v : Variable} {t : Term} (h : b.bind v t = some c) :
    c.Extends b ∧ c.get? v = some t ∧ ∀ w, c.contains w = true ↔ b.contains w = true ∨ w = v := by
  unfold bind at h
  cases hv : b.get? v with
  | some u =>
    rw [hv] at h
    dsimp only at h
    split at h
    · rename_i hut
      cases h
      subst hut
      refine ⟨fun _ _ h => h, hv, fun w => ⟨.inl, ?_⟩⟩
      rintro (hw | rfl)
      · exact hw
      · exact (SortedMap.contains_iff b).mpr ⟨u, hv⟩
    · cases h
  | none =>
    rw [hv] at h
    cases h
    have hget : ∀ w, (b.insert v t).get? w = if w = v then some t else b.get? w := by
      intro w
      rw [SortedMap.get?_insert]
      exact if_congr Std.LawfulEqOrd.compare_eq_iff_eq rfl rfl
    refine ⟨fun w u hw => ?_, by rw [hget, if_pos rfl], fun w => ?_⟩
    · have hne : w ≠ v := by
        rintro rfl
        rw [hv] at hw
        cases hw
      rw [hget, if_neg hne, hw]
    · rw [SortedMap.contains_iff, SortedMap.contains_iff, hget]
      by_cases hw : w = v <;> simp [hw]

theorem exists_bind {b d : Binding} {v : Variable} {t : Term} (hd : d.Extends b)
    (hv : d.get? v = some t) : ∃ c, b.bind v t = some c ∧ d.Extends c := by
  unfold bind
  cases hb : b.get? v with
  | some u =>
    have : u = t := Option.some.inj ((hd v u hb).symm.trans hv)
    exact ⟨b, by simp [this], hd⟩
  | none =>
    refine ⟨b.insert v t, rfl, fun w u hw => ?_⟩
    rw [SortedMap.get?_insert] at hw
    split at hw
    · rename_i hwv
      cases hw
      rw [Std.LawfulEqOrd.eq_of_compare hwv, hv]
    · exact hd w u hw

theorem matchTerm_spec {b c : Binding} {x t : Term} (h : matchTerm b x t = some c) :
    c.Extends b ∧ x.resolve c = some t ∧
      ∀ w, c.contains w = true ↔ b.contains w = true ∨ x.var? = some w := by
  cases x with
  | var v =>
    obtain ⟨hext, hv, hdom⟩ := bind_spec (b := b) (v := v) (t := t) h
    refine ⟨hext, hv, fun w => (hdom w).trans (or_congr_right ?_)⟩
    exact ⟨fun hw => congrArg some hw.symm, fun hw => (Option.some.inj hw).symm⟩
  | iri s | literal l | blank s =>
    simp only [matchTerm] at h
    split at h
    · rename_i heq
      cases h
      subst heq
      exact ⟨fun _ _ h => h, rfl, fun w => ⟨.inl, fun h => h.resolve_right (by simp [Term.var?])⟩⟩
    · cases h

theorem exists_matchTerm {b d : Binding} {x t : Term} (hd : d.Extends b)
    (hx : x.resolve d = some t) : ∃ c, matchTerm b x t = some c ∧ d.Extends c := by
  cases x with
  | var v => exact exists_bind hd hx
  | iri s | literal l | blank s =>
    cases hx
    exact ⟨b, by simp [matchTerm], hd⟩

/-- A match makes the pattern the fact, and binds the pattern's variables only. -/
theorem ofMatch_spec {pattern fact : Triple} {b : Binding} (h : ofMatch pattern fact = some b) :
    pattern.substitute b = .ok fact ∧ ∀ v, b.contains v = true ↔ v ∈ pattern.vars := by
  simp only [ofMatch, Option.bind_eq_bind, Option.bind_eq_some_iff] at h
  obtain ⟨b₁, h₁, b₂, h₂, h₃⟩ := h
  obtain ⟨_, hs, hdom₁⟩ := matchTerm_spec h₁
  obtain ⟨hext₂, hp, hdom₂⟩ := matchTerm_spec h₂
  obtain ⟨hext₃, ho, hdom₃⟩ := matchTerm_spec h₃
  refine ⟨Triple.substitute_eq_ok_iff.mpr ⟨Term.resolve_mono (hext₃.trans hext₂) hs,
    Term.resolve_mono hext₃ hp, ho⟩, fun v => ?_⟩
  have hempty : (∅ : Binding).contains v = true ↔ False := by
    simp [SortedMap.contains_iff, SortedMap.get?_empty]
  rw [hdom₃, hdom₂, hdom₁, hempty, Triple.mem_vars, false_or, or_assoc]

/-- Whatever makes the pattern the fact extends the match. -/
theorem exists_ofMatch {pattern fact : Triple} {d : Binding} (h : pattern.substitute d = .ok fact) :
    ∃ b, ofMatch pattern fact = some b ∧ d.Extends b := by
  obtain ⟨hs, hp, ho⟩ := Triple.substitute_eq_ok_iff.mp h
  obtain ⟨b₁, h₁, hd₁⟩ := exists_matchTerm (extends_empty d) hs
  obtain ⟨b₂, h₂, hd₂⟩ := exists_matchTerm hd₁ hp
  obtain ⟨b₃, h₃, hd₃⟩ := exists_matchTerm hd₂ ho
  refine ⟨b₃, ?_, hd₃⟩
  simp only [ofMatch, Option.bind_eq_bind, Option.bind_eq_some_iff]
  exact ⟨b₁, h₁, b₂, h₂, h₃⟩

end Binding

end HornReasoner
