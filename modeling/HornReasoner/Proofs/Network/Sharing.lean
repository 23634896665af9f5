import HornReasoner.Proofs.Formula.Renaming
import HornReasoner.Proofs.Network.Trie
import HornReasoner.Proofs.Ontology.Interpretation
import Mathlib.Algebra.Order.BigOperators.Group.List
import Mathlib.Data.Set.Function

/-! What an alpha node tests.

The key of a pattern fills slots where a match binds variables, and passes the same facts
(`AlphaKey.holds_iff`). A pattern has an instance in which every variable stands for a term of its
own, and a pattern that matches this instance makes no more equalities than it; so patterns that
match the same facts are the same up to the names of their variables, and have the same key
(`pattern_laws`). -/
namespace HornReasoner

/-! ### Testing and matching -/

namespace KeyTerm
variable {b : Binding} {seen : List Variable} {slots slots' : List Term} {x t : Term}

/-- The variables seen are those bound, and the slots hold their values. -/
structure Tracks (b : Binding) (seen : List Variable) (slots : List Term) : Prop where
  values : Agree b seen slots
  domain : ∀ v, b.contains v = true ↔ v ∈ seen

theorem Tracks.empty : Tracks ∅ [] [] where
  values := rfl
  domain v := by simp [SortedMap.contains_iff, SortedMap.get?_empty]

theorem Agree.mono {c : Binding} (h : Agree b seen slots) (hext : c.Extends b) :
    Agree c seen slots :=
  Binding.keyFor_eq_some_iff.mp (Binding.keyFor_mono hext (Binding.keyFor_eq_some_iff.mpr h))

/-- A term that passes the test of a key is matched as well. -/
theorem exists_matchTerm_of_test? (h : Tracks b seen slots)
    (htest : (of seen x).1.test? slots t = some slots') :
    ∃ c, Binding.matchTerm b x t = some c ∧ Tracks c (of seen x).2 slots' := by
  cases x with
  | var v =>
    cases hv : seen.idxOf? v with
    | some i =>
      have hi := getElem?_of_idxOf? hv
      obtain ⟨u, hu⟩ := (SortedMap.contains_iff b).mp ((h.domain v).mpr (List.mem_of_getElem? hi))
      have hslot := h.values.getElem? hi hu
      simp only [of, hv, test?, hslot] at htest ⊢
      split at htest
      · rename_i hut
        cases htest
        exact ⟨b, by simp [Binding.matchTerm, Binding.bind, hu, hut], h⟩
      · cases htest
    | none =>
      have hnew : v ∉ seen := List.idxOf?_eq_none_iff.mp hv
      have hunbound : b.get? v = none := Option.eq_none_iff_forall_ne_some.mpr fun u hu =>
        hnew ((h.domain v).mp ((SortedMap.contains_iff b).mpr ⟨u, hu⟩))
      have hlast : slots[seen.length]? = none :=
        List.getElem?_eq_none (Nat.le_of_eq h.values.length_eq.symm)
      simp only [of, hv, test?, hlast, Option.some.injEq] at htest ⊢
      subst htest
      have hbind : b.bind v t = some (b.insert v t) := by rw [Binding.bind, hunbound]
      obtain ⟨hext, hget, hdomain⟩ := Binding.bind_spec hbind
      refine ⟨_, hbind, (h.values.mono hext).snoc hget, fun w => ?_⟩
      rw [hdomain, h.domain, List.mem_append, List.mem_singleton]
  | iri _ | literal _ | blank _ =>
    simp only [of, test?] at htest ⊢
    split at htest
    · rename_i heq
      cases htest
      exact ⟨b, by simp [Binding.matchTerm, heq], h⟩
    · cases htest

end KeyTerm

/-- A fact passes the key of a pattern if and only if the pattern matches it. -/
theorem AlphaKey.holds_iff {p fact : Triple} :
    (of p).holds fact = true ↔ (Binding.ofMatch p fact).isSome = true := by
  constructor
  · intro h
    simp only [holds, of, Option.bind_eq_bind, Option.isSome_iff_exists,
      Option.bind_eq_some_iff] at h
    obtain ⟨_, slots₁, h₁, slots₂, h₂, h₃⟩ := h
    obtain ⟨b₁, hmatch₁, htracks₁⟩ := KeyTerm.exists_matchTerm_of_test? .empty h₁
    obtain ⟨b₂, hmatch₂, htracks₂⟩ := KeyTerm.exists_matchTerm_of_test? htracks₁ h₂
    obtain ⟨b₃, hmatch₃, _⟩ := KeyTerm.exists_matchTerm_of_test? htracks₂ h₃
    simp only [Binding.ofMatch, hmatch₁, hmatch₂, hmatch₃, Option.bind_eq_bind, Option.bind_some,
      Option.isSome_some]
  · intro h
    obtain ⟨b, hb⟩ := Option.isSome_iff_exists.mp h
    exact holds_of_substitute (Binding.ofMatch_spec hb).1

/-- A match is the only binding of a pattern's variables that makes it the fact. -/
theorem Binding.ofMatch_eq_some_iff {p fact : Triple} {b : Binding} : ofMatch p fact = some b ↔
    (∀ v, b.contains v = true ↔ v ∈ p.vars) ∧ p.substitute b = .ok fact := by
  constructor
  · intro h
    exact ⟨(ofMatch_spec h).2, (ofMatch_spec h).1⟩
  · rintro ⟨hdomain, hinstance⟩
    obtain ⟨c, hc, hext⟩ := exists_ofMatch hinstance
    have hback : c.Extends b := by
      intro v t hv
      have hmem := (hdomain v).mp ((SortedMap.contains_iff b).mpr ⟨t, hv⟩)
      obtain ⟨u, hu⟩ := (SortedMap.contains_iff c).mp (((ofMatch_spec hc).2 v).mpr hmem)
      rw [hu, ← hext v u hu, hv]
    have heq : c = b := SortedMap.ext_get? fun v => Option.ext fun t => ⟨hext v t, hback v t⟩
    rw [hc, heq]

/-! ### Renaming variables -/

section
variable {ρ : Variable → Variable}

theorem KeyTerm.mem_seen_of {seen : List Variable} {x : Term} {v : Variable} :
    v ∈ (of seen x).2 ↔ v ∈ seen ∨ x.var? = some v := by
  cases x with
  | var w =>
    cases hw : seen.idxOf? w with
    | some i =>
      have hmem := List.mem_of_getElem? (getElem?_of_idxOf? hw)
      simp only [of, hw, Term.var?, Option.some.injEq]
      exact ⟨.inl, fun h => h.elim id fun heq => heq ▸ hmem⟩
    | none =>
      simp only [of, hw, Term.var?, List.mem_append, List.mem_singleton, Option.some.injEq, eq_comm]
  | iri _ | literal _ | blank _ => simp [of, Term.var?]

theorem idxOf?_map {seen : List Variable} {v : Variable} (h : ∀ w ∈ seen, ρ w = ρ v → w = v) :
    (seen.map ρ).idxOf? (ρ v) = seen.idxOf? v := by
  induction seen with
  | nil => rfl
  | cons w rest ih =>
    obtain ⟨hw, hrest⟩ := List.forall_mem_cons.mp h
    have hsame : (ρ w == ρ v) = (w == v) := by
      rw [Bool.eq_iff_iff, beq_iff_eq, beq_iff_eq]
      exact ⟨hw, congrArg ρ⟩
    rw [List.map_cons, List.idxOf?_cons, List.idxOf?_cons, hsame, ih hrest]

/-- Slots are numbered by occurrence, whatever the names. -/
theorem KeyTerm.of_rename (seen : List Variable) {x : Term}
    (h : ∀ w ∈ seen, ∀ v, x.var? = some v → ρ w = ρ v → w = v) :
    of (seen.map ρ) (x.rename ρ) = ((of seen x).1, (of seen x).2.map ρ) := by
  cases x with
  | var v =>
    have hindex := idxOf?_map fun w hw => h w hw v rfl
    cases hv : seen.idxOf? v with
    | some i => simp [of, Term.rename, hindex, hv]
    | none => simp [of, Term.rename, hindex, hv]
  | iri _ | literal _ | blank _ => rfl

theorem AlphaKey.of_rename {p : Triple} (h : Set.InjOn ρ {v | v ∈ p.vars}) :
    of (p.rename ρ) = of p := by
  have hinj : ∀ {w v}, w ∈ p.vars → v ∈ p.vars → ρ w = ρ v → w = v := fun hw hv heq => h hw hv heq
  have hsubject := KeyTerm.of_rename (ρ := ρ) [] (x := p.subject)
    fun w hw => absurd hw List.not_mem_nil
  have hpredicate := KeyTerm.of_rename (ρ := ρ) (KeyTerm.of [] p.subject).2 (x := p.predicate)
    fun w hw v hv => by
      rcases KeyTerm.mem_seen_of.mp hw with hw | hw
      · exact absurd hw List.not_mem_nil
      · exact hinj (Triple.mem_vars.mpr (.inl hw)) (Triple.mem_vars.mpr (.inr (.inl hv)))
  have hobject := KeyTerm.of_rename (ρ := ρ) (KeyTerm.of (KeyTerm.of [] p.subject).2 p.predicate).2
    (x := p.object) fun w hw v hv => by
      refine hinj ?_ (Triple.mem_vars.mpr (.inr (.inr hv)))
      rcases KeyTerm.mem_seen_of.mp hw with hw | hw
      · rcases KeyTerm.mem_seen_of.mp hw with hw | hw
        · exact absurd hw List.not_mem_nil
        · exact Triple.mem_vars.mpr (.inl hw)
      · exact Triple.mem_vars.mpr (.inr (.inl hw))
  rw [List.map_nil] at hsubject
  simp only [of, Triple.rename, Triple.map, hsubject, hpredicate, hobject]

end

/-! ### Patterns with the same matches -/

/-- There is a term of its own for each variable, none of them among `ts`. -/
theorem exists_generic (ts : List Term) : ∃ σ : Variable → Term, Function.Injective σ ∧
    ∀ v, (σ v).IsIndividual ∧ σ v ∉ ts := by
  -- blank nodes with labels longer than all texts
  obtain ⟨n, hn⟩ : ∃ n, n = (ts.map fun t => t.text.length).sum + 1 := ⟨_, rfl⟩
  refine ⟨fun v => .blank (String.ofList (List.replicate n 'b') ++ v.name), fun v w h => ?_,
    fun v => ⟨rfl, fun hv => ?_⟩⟩
  · have hlabel := congrArg String.toList (Term.blank.inj h)
    rw [String.toList_append, String.toList_append] at hlabel
    have hname := String.toList_injective (List.append_cancel_left hlabel)
    cases v
    cases w
    exact congrArg Variable.mk hname
  · have hle := List.le_sum_of_mem (List.mem_map_of_mem (f := fun t => t.text.length) hv)
    have hlength : (String.ofList (List.replicate n 'b') ++ v.name).length = n + v.name.length := by
      simp
    have hle : (String.ofList (List.replicate n 'b') ++ v.name).length ≤ _ := hle
    omega

/-- A pattern matches its instances. -/
theorem Binding.isSome_ofMatch_assign (σ : Variable → Term) (t : Triple) :
    (ofMatch t (t.assign σ)).isSome = true := by
  obtain ⟨b, hb, _⟩ := exists_ofMatch (d := .ofAssignment σ t.vars)
    (Triple.substitute_eq_assign fun v hv => by rw [get?_ofAssignment, if_pos hv])
  exact Option.isSome_iff_exists.mpr ⟨b, hb⟩

section
variable {σ : Variable → Term} {b c : Binding}

/-- Where terms have each other's generic instance as theirs, both are variables, and renamed as
`c` binds them, or both are the same. -/
theorem Term.eq_rename_of_instances {ρ : Variable → Variable} {x y : Term}
    (hρ : ∀ v w, c.get? v = some (σ w) → ρ v = w) (hx : ∀ v, σ v ≠ x) (hy : ∀ v, σ v ≠ y)
    (hxy : x.resolve c = some (y.assign σ)) (hyx : y.resolve b = some (x.assign σ)) :
    y = x.rename ρ ∧ ∀ v, x.var? = some v → b.get? (ρ v) = some (σ v) := by
  cases x with
  | var v =>
    cases y with
    | var w =>
      have hv : ρ v = w := hρ v w hxy
      refine ⟨congrArg Term.var hv.symm, fun u hu => ?_⟩
      cases hu
      rw [hv]
      exact hyx
    | iri _ | literal _ | blank _ => exact absurd (Option.some.inj hyx).symm (hy v)
  | iri _ | literal _ | blank _ =>
    cases y with
    | var w => exact absurd (Option.some.inj hxy).symm (hx w)
    | iri _ | literal _ | blank _ => exact ⟨(Option.some.inj hxy).symm, fun v hv => by cases hv⟩

/-- Patterns that have each other's generic instance as theirs differ in the names of variables at
most. -/
theorem Triple.exists_rename_of_instances {p q : Triple} (hσ : Function.Injective σ)
    (hfresh : ∀ v, σ v ∉ p.terms ++ q.terms) (hp : p.substitute c = .ok (q.assign σ))
    (hq : q.substitute b = .ok (p.assign σ)) :
    ∃ ρ, Set.InjOn ρ {v | v ∈ p.vars} ∧ q = p.rename ρ := by
  -- the variable of `q` whose own term `c` gives to a variable of `p`
  have hvariable : ∀ v, ∃ w, ∀ u, c.get? v = some (σ u) → w = u := by
    intro v
    by_cases hv : ∃ w, c.get? v = some (σ w)
    · obtain ⟨w, hw⟩ := hv
      exact ⟨w, fun u hu => hσ (Option.some.inj (hw.symm.trans hu))⟩
    · exact ⟨v, fun u hu => absurd ⟨u, hu⟩ hv⟩
  choose ρ hρ using hvariable
  have hterm : ∀ {x y : Term}, x ∈ p.terms → y ∈ q.terms → x.resolve c = some (y.assign σ) →
      y.resolve b = some (x.assign σ) →
      y = x.rename ρ ∧ ∀ v, x.var? = some v → b.get? (ρ v) = some (σ v) :=
    fun hx hy => Term.eq_rename_of_instances hρ
      (fun v heq => hfresh v (heq ▸ List.mem_append_left _ hx))
      (fun v heq => hfresh v (heq ▸ List.mem_append_right _ hy))
  obtain ⟨hps, hpp, hpo⟩ := Triple.substitute_eq_ok_iff.mp hp
  obtain ⟨hqs, hqp, hqo⟩ := Triple.substitute_eq_ok_iff.mp hq
  simp only [Triple.terms, List.mem_cons] at hterm
  obtain ⟨hs, hsval⟩ := hterm (.inl rfl) (.inl rfl) hps hqs
  obtain ⟨hp, hpval⟩ := hterm (.inr (.inl rfl)) (.inr (.inl rfl)) hpp hqp
  obtain ⟨ho, hoval⟩ := hterm (.inr (.inr (.inl rfl))) (.inr (.inr (.inl rfl))) hpo hqo
  refine ⟨ρ, fun v hv w hw heq => ?_, ?_⟩
  · have hvalue : ∀ v ∈ p.vars, b.get? (ρ v) = some (σ v) := fun v hv =>
      (Triple.mem_vars.mp hv).elim (hsval v) (Or.rec (hpval v) (hoval v))
    have hsame := hvalue v hv
    rw [heq, hvalue w hw] at hsame
    exact (hσ (Option.some.inj hsame)).symm
  · cases q
    exact Triple.mk.injEq .. |>.mpr ⟨hs, hp, ho⟩

end

/-- Patterns that match the same facts differ in the names of variables at most: each matches its
own generic instance, so the other one does. -/
theorem exists_rename_of_matches {p q : Triple} (h : ∀ fact : Triple, fact.hasVariables = false →
    ((Binding.ofMatch p fact).isSome = true ↔ (Binding.ofMatch q fact).isSome = true)) :
    ∃ ρ, Set.InjOn ρ {v | v ∈ p.vars} ∧ q = p.rename ρ := by
  obtain ⟨σ, hσ, hfresh⟩ := exists_generic (p.terms ++ q.terms)
  have hground : ∀ t : Triple, (t.assign σ).hasVariables = false := fun t =>
    Triple.hasVariables_assign_eq_false_iff.mpr fun v _ => (hfresh v).1
  obtain ⟨b, hb⟩ := Option.isSome_iff_exists.mp
    ((h _ (hground p)).mp (Binding.isSome_ofMatch_assign σ p))
  obtain ⟨c, hc⟩ := Option.isSome_iff_exists.mp
    ((h _ (hground q)).mpr (Binding.isSome_ofMatch_assign σ q))
  exact Triple.exists_rename_of_instances hσ (fun v => (hfresh v).2) (Binding.ofMatch_spec hc).1
    (Binding.ofMatch_spec hb).1

/-! ### Alpha nodes -/

namespace Network

/-- Alpha nodes tell apart what patterns tell apart, and nothing else. -/
structure TestsOnce (net : Network) : Prop where
  /-- Along every edge a fact is bound just if it passes the node's test. -/
  edges : ∀ node ∈ net.alphas, ∀ edge ∈ node.successors, ∀ fact,
    node.key.holds fact = true ↔ (Binding.ofMatch edge.pattern fact).isSome = true
  /-- Some fact passes the test of one node and not of the other. -/
  apart : ∀ (i j : AlphaId) node other, net.alphas[i.index]? = some node →
    net.alphas[j.index]? = some other → i ≠ j →
    ∃ fact, fact.hasVariables = false ∧ node.key.holds fact ≠ other.key.holds fact

end Network

/-- Patterns have the same key if and only if they match the same facts. -/
theorem AlphaKey.of_eq_of_iff {p q : Triple} : of p = of q ↔
    ∀ fact : Triple, fact.hasVariables = false →
      ((Binding.ofMatch p fact).isSome = true ↔ (Binding.ofMatch q fact).isSome = true) := by
  constructor
  · intro heq fact _
    rw [← holds_iff, heq, holds_iff]
  · intro h
    obtain ⟨ρ, hρ, rfl⟩ := exists_rename_of_matches h
    exact (of_rename hρ).symm

theorem History.testsOnce {builtins : Registry} {options : NetworkOptions} {net : Network}
    {ledger : Ledger} (h : History builtins options net ledger) : net.TestsOnce where
  edges node hnode edge hedge fact := by
    obtain ⟨i, hi⟩ := List.mem_iff_getElem?.mp hnode
    have hkey : net.alphaKey? ⟨i⟩ = some node.key := congrArg (Option.map AlphaNode.key) hi
    have hmem : edge ∈ net.edgesOf ⟨i⟩ := by
      rw [Network.edgesOf, hi]
      exact hedge
    have hof := h.keeps.resting.wired.alpha.keyed ⟨i⟩ edge hmem
    rw [Option.some.inj (hkey.symm.trans hof), AlphaKey.holds_iff]
  apart i j node other hi hj hne := by
    have hmade : ∀ {n : AlphaId} {node : AlphaNode}, net.alphas[n.index]? = some node →
        ∃ t, AlphaKey.of t = node.key := by
      intro n node hn
      have hmem : node.key ∈ net.alphas.map AlphaNode.key :=
        List.mem_map_of_mem (List.mem_of_getElem? hn)
      obtain ⟨_, t, _, _, ht⟩ := (h.keeps.resting.wired.isTrie h.tight).tested _ |>.mp hmem
      exact ⟨t, ht⟩
    obtain ⟨t, ht⟩ := hmade hi
    obtain ⟨u, hu⟩ := hmade hj
    by_contra hnone
    push Not at hnone
    have hsame : AlphaKey.of t = AlphaKey.of u := by
      refine AlphaKey.of_eq_of_iff.mpr fun fact hfact => ?_
      rw [← AlphaKey.holds_iff, ← AlphaKey.holds_iff, ht, hu, hnone fact hfact]
    have hkeys : (net.alphas.map AlphaNode.key)[i.index]? =
        (net.alphas.map AlphaNode.key)[j.index]? := by
      rw [List.getElem?_map, List.getElem?_map, hi, hj, Option.map_some, Option.map_some, ← ht, ← hu,
        hsame]
    have hlt : i.index < (net.alphas.map AlphaNode.key).length := by
      rw [List.length_map]
      exact (List.getElem?_eq_some_iff.mp hi).1
    have hindex := (List.getElem?_inj hlt h.tight.nodup_keys).mp hkeys
    cases i
    cases j
    exact hne (congrArg AlphaId.mk hindex)

/-- **The key of a pattern, its match and its instances agree**, patterns share a key just if they
match the same facts, that is if they differ in the names of variables only; so alpha nodes of a
network merge no different tests, keep no equal ones apart, and have a binding for each edge. -/
theorem AlphaKey.pattern_laws (p q : Triple) :
    (∀ fact, (of p).holds fact = true ↔ (Binding.ofMatch p fact).isSome = true) ∧
      (∀ fact b, Binding.ofMatch p fact = some b ↔
        (∀ v, b.contains v = true ↔ v ∈ p.vars) ∧ p.substitute b = .ok fact) ∧
      (of p = of q ↔ ∀ fact : Triple, fact.hasVariables = false →
        ((Binding.ofMatch p fact).isSome = true ↔ (Binding.ofMatch q fact).isSome = true)) ∧
      (of p = of q ↔ ∃ ρ, Set.InjOn ρ {v | v ∈ p.vars} ∧ q = p.rename ρ) ∧
      ∀ builtins options net ledger, History builtins options net ledger → net.TestsOnce := by
  refine ⟨fun fact => holds_iff, fun fact b => Binding.ofMatch_eq_some_iff, of_eq_of_iff, ?_,
    fun _ _ _ _ h => h.testsOnce⟩
  constructor
  · exact fun h => exists_rename_of_matches (of_eq_of_iff.mp h)
  · rintro ⟨ρ, hρ, rfl⟩
    exact (of_rename hρ).symm

/-- The two patterns of transitivity share a node that has an edge for each. -/
theorem AlphaKey.pattern_laws_of_transitivity : ∃ net ledger, History ∅ {} net ledger ∧
    net.TestsOnce ∧ net.alphas.map (fun node => node.successors.map AlphaEdge.pattern) =
      [[⟨.var ⟨"x"⟩, .iri "p", .var ⟨"y"⟩⟩, ⟨.var ⟨"y"⟩, .iri "p", .var ⟨"z"⟩⟩]] ∧
    AlphaKey.of ⟨.var ⟨"x"⟩, .iri "p", .var ⟨"y"⟩⟩ =
      AlphaKey.of ⟨.var ⟨"y"⟩, .iri "p", .var ⟨"z"⟩⟩ := by
  have hrun : (Network.ofRule transitivity 40 chain).map (fun e =>
      e.1.alphas.map fun node => node.successors.map AlphaEdge.pattern) =
      some [[⟨.var ⟨"x"⟩, .iri "p", .var ⟨"y"⟩⟩, ⟨.var ⟨"y"⟩, .iri "p", .var ⟨"z"⟩⟩]] := by
    decide +kernel
  obtain ⟨⟨net, result⟩, hcalls, hshown⟩ := Option.map_eq_some_iff.mp hrun
  obtain ⟨ledger, h, _⟩ := History.of_ofRule hcalls
  obtain ⟨_, _, _, hrename, hnetwork⟩ := AlphaKey.pattern_laws
    ⟨.var ⟨"x"⟩, .iri "p", .var ⟨"y"⟩⟩ ⟨.var ⟨"y"⟩, .iri "p", .var ⟨"z"⟩⟩
  refine ⟨net, ledger, h, hnetwork ∅ {} net ledger h, hshown, hrename.mpr ?_⟩
  refine ⟨fun v => if v = ⟨"x"⟩ then ⟨"y"⟩ else ⟨"z"⟩, ?_, rfl⟩
  rintro v hv w hw heq
  have hvars : ∀ u ∈ (⟨.var ⟨"x"⟩, .iri "p", .var ⟨"y"⟩⟩ : Triple).vars, u = ⟨"x"⟩ ∨ u = ⟨"y"⟩ := by
    decide
  rcases hvars v hv with rfl | rfl <;> rcases hvars w hw with rfl | rfl
  · rfl
  · exact absurd heq (by decide)
  · exact absurd heq (by decide)
  · rfl

end HornReasoner
