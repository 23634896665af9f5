import HornReasoner.Proofs.Network.Course

/-! Exact provenance.

With all justifications kept, an inferred triple has one for each way its rules conclude it
from the facts. None is made up, none is noted twice (`Books`), and none is missing: whatever
fired is credited with its conclusions (`Credited`), and a credit is never lost, since a known
triple does not become an inferred one. The first justification of a triple uses facts before
it only, so first justifications make proof trees (`Proved`). -/
namespace HornReasoner

namespace Provenance

variable {p : Provenance} {t : Triple} {j : Justification}

theorem knows_iff : p.knows t j = true ↔
    ∃ k ∈ p.justifications t, k.production = j.production ∧ k.support = j.support := by
  simp [knows]

theorem record_of_known (h : p.knows t j = true) : (p.record t j true).1 = p := by
  simp [record, h]

theorem record_of_unknown (h : p.knows t j = false) : (p.record t j true).1 = p.add t j := by
  simp [record, h]

theorem prefix_record (p : Provenance) (t : Triple) (j : Justification) (u : Triple) :
    p.justifications u <+: ((p.record t j true).1).justifications u := by
  cases h : p.knows t j with
  | true => exact (record_of_known h).symm ▸ List.prefix_rfl
  | false =>
    rw [record_of_unknown h, justifications, justifications, Buckets.find_add]
    split
    · exact List.prefix_append ..
    · exact List.prefix_rfl

theorem exists_record (p : Provenance) (t : Triple) (j : Justification) :
    ∃ k ∈ ((p.record t j true).1).justifications t,
      k.production = j.production ∧ k.support = j.support := by
  cases h : p.knows t j with
  | true =>
    rw [record_of_known h]
    exact knows_iff.mp h
  | false =>
    rw [record_of_unknown h, justifications, Buckets.find_add, if_pos rfl]
    exact ⟨j, by simp, rfl, rfl⟩

/-- A record holds what was held and the new justification. -/
theorem mem_record {u : Triple} {k : Justification}
    (h : k ∈ ((p.record t j true).1).justifications u) :
    k ∈ p.justifications u ∨ u = t ∧ k = j := by
  cases hknows : p.knows t j with
  | true =>
    rw [record_of_known hknows] at h
    exact .inl h
  | false =>
    rw [record_of_unknown hknows, justifications, Buckets.find_add] at h
    split at h
    · rename_i heq
      exact (List.mem_append.mp h).imp_right fun hk => ⟨heq, List.mem_singleton.mp hk⟩
    · exact .inl h

theorem nodup_record {u : Triple}
    (h : ((p.justifications u).map fun k => (k.production, k.support)).Nodup) :
    ((((p.record t j true).1).justifications u).map fun k => (k.production, k.support)).Nodup := by
  cases hknows : p.knows t j with
  | true =>
    rw [record_of_known hknows]
    exact h
  | false =>
    rw [record_of_unknown hknows, justifications, Buckets.find_add]
    split
    · rename_i heq
      rw [List.map_append, List.map_singleton]
      refine List.nodup_append.mpr ⟨h, List.nodup_singleton _, fun pair hpair other hother heq' => ?_⟩
      rw [List.mem_singleton.mp hother] at heq'
      obtain ⟨k, hk, rfl⟩ := List.mem_map.mp hpair
      obtain ⟨hproduction, hsupport⟩ := Prod.mk.inj heq'
      have hknown : p.knows t j = true := knows_iff.mpr ⟨k, heq ▸ hk, hproduction, hsupport⟩
      rw [hknows] at hknown
      cases hknown
    · exact h

/-- The first justification stays the first. -/
theorem exists_record_of_cons {u : Triple} {k : Justification} {others : List Justification}
    (h : p.justifications u = k :: others) :
    ∃ more, ((p.record t j true).1).justifications u = k :: more := by
  obtain ⟨more, hmore⟩ := p.prefix_record t j u
  exact ⟨others ++ more, by rw [← hmore, h]; rfl⟩

theorem keys_record (p : Provenance) (t : Triple) (j : Justification) :
    ((p.record t j true).1).map Prod.fst =
      if t ∈ p.map Prod.fst then p.map Prod.fst else p.map Prod.fst ++ [t] := by
  cases hknows : p.knows t j with
  | true =>
    obtain ⟨k, hk, _⟩ := knows_iff.mp hknows
    have hmem : t ∈ p.map Prod.fst := by
      by_contra hnot
      rw [justifications, Buckets.find_eq_nil hnot] at hk
      cases hk
    rw [record_of_known hknows, if_pos hmem]
  | false => rw [record_of_unknown hknows, Buckets.keys_add]

/-- The triples with proof trees made of first justifications. -/
inductive Proved (p : Provenance) (fed : List Triple) : Triple → Prop where
  | fed {t : Triple} : t ∈ fed → p.justifications t = [] → Proved p fed t
  | first {t : Triple} {j : Justification} {others : List Justification} :
      p.justifications t = j :: others → (∀ u ∈ j.support, Proved p fed u) → Proved p fed t

end Provenance

namespace Network

variable {net net' : Network} {log : List Activation} {pending : List ProductionId}

/-- The production concludes the triple from a match in the facts. -/
def Justifies (net : Network) (facts : List Triple) (id : ProductionId) (support : List Triple)
    (t : Triple) : Prop :=
  ∃ rule b fresh, net.rule? id = some rule ∧ (∀ u ∈ support, u ∈ facts) ∧
    Matches net.builtins rule.body support b ∧ net.witnesses id rule support = some fresh ∧
    ∃ atom ∈ rule.head, atom.substitute (b.insertAllIfNew fresh) = .ok t

theorem Grows.justifies (h : Grows net net') {facts : List Triple} {id : ProductionId}
    {support : List Triple} {t : Triple} (ht : net.Justifies facts id support t) :
    net'.Justifies facts id support t := by
  obtain ⟨rule, b, fresh, hrule, hsupport, hmatch, hfresh, hhead⟩ := ht
  exact ⟨rule, b, fresh, h.rules id rule hrule, hsupport, h.builtins ▸ hmatch,
    h.witnesses hfresh, hhead⟩

theorem Justifies.mono {facts more : List Triple} (hmore : ∀ t ∈ facts, t ∈ more)
    {id : ProductionId} {support : List Triple} {t : Triple}
    (h : net.Justifies facts id support t) : net.Justifies more id support t := by
  obtain ⟨rule, b, fresh, hrule, hsupport, hrest⟩ := h
  exact ⟨rule, b, fresh, hrule, fun u hu => hmore u (hsupport u hu), hrest⟩

/-! ### Books -/

/-- Justifications of inferred triples, each right and noted once, the first from facts before
the triple. -/
structure Books (net : Network) : Prop where
  keys : net.provenance.map Prod.fst = net.inferred.toList
  once : ∀ t, ((net.provenance.justifications t).map fun j => (j.production, j.support)).Nodup
  sound : ∀ t, ∀ j ∈ net.provenance.justifications t,
    net.Justifies net.workingMemory.toList j.production j.support t ∧
      ∀ rule, net.rule? j.production = some rule → j.rule = rule.label
  first : ∀ t ∈ net.inferred.toList, ∃ j others before after,
    net.provenance.justifications t = j :: others ∧
      net.workingMemory.toList = before ++ t :: after ∧ ∀ u ∈ j.support, u ∈ before

theorem Books.mem_memory (h : net.Books) {t : Triple} (ht : t ∈ net.inferred.toList) :
    t ∈ net.workingMemory.toList := by
  obtain ⟨_, _, before, after, _, hsplit, _⟩ := h.first t ht
  rw [hsplit]
  simp

/-- Rules, facts and table may grow if no justification changes. -/
theorem Books.grow (h : net.Books) (hgrows : Grows net net') (hinferred : net'.inferred = net.inferred)
    (hprovenance : net'.provenance = net.provenance) : net'.Books where
  keys := by
    rw [hprovenance, hinferred]
    exact h.keys
  once := by
    rw [hprovenance]
    exact h.once
  sound := by
    rw [hprovenance]
    intro t j hj
    obtain ⟨hjustifies, hlabel⟩ := h.sound t j hj
    refine ⟨(hgrows.justifies hjustifies).mono fun u hu => hgrows.memory.subset hu,
      fun rule hrule => ?_⟩
    obtain ⟨other, _, _, hother, _⟩ := hjustifies
    rw [hgrows.rules _ other hother] at hrule
    exact hlabel rule (hrule ▸ hother)
  first := by
    rw [hprovenance, hinferred]
    intro t ht
    obtain ⟨j, others, before, after, hjs, hsplit, hbefore⟩ := h.first t ht
    obtain ⟨more, hmore⟩ := hgrows.memory
    refine ⟨j, others, before, after ++ more, hjs, ?_, hbefore⟩
    rw [← hmore, hsplit, List.append_assoc, List.cons_append]

/-- No justification is lost, and what was known is inferred only if it was before. -/
structure Notes (net net' : Network) : Prop where
  memory : net.workingMemory.toList <+: net'.workingMemory.toList
  inferred : ∀ t ∈ net.workingMemory.toList, t ∈ net'.inferred.toList → t ∈ net.inferred.toList
  justified : ∀ t, net.provenance.justifications t <+: net'.provenance.justifications t

theorem Notes.refl (net : Network) : Notes net net :=
  ⟨List.prefix_rfl, fun _ _ h => h, fun _ => List.prefix_rfl⟩

theorem Notes.trans {net'' : Network} (h : Notes net net') (h' : Notes net' net'') :
    Notes net net'' :=
  ⟨h.memory.trans h'.memory,
    fun t ht hin => h.inferred t ht (h'.inferred t (h.memory.subset ht) hin),
    fun t => (h.justified t).trans (h'.justified t)⟩

theorem Notes.of_same (hgrows : Grows net net') (hinferred : net'.inferred = net.inferred)
    (hprovenance : net'.provenance = net.provenance) : Notes net net' :=
  ⟨hgrows.memory, fun _ _ h => hinferred ▸ h, fun _ => hprovenance ▸ List.prefix_rfl⟩

/-- The triple is known, and if it was inferred, the production on this support is among its
justifications. -/
def Noted (net : Network) (id : ProductionId) (support : List Triple) (t : Triple) : Prop :=
  t ∈ net.workingMemory.toList ∧ (t ∈ net.inferred.toList →
    ∃ j ∈ net.provenance.justifications t, j.production = id ∧ j.support = support)

theorem Noted.mono (h : Notes net net') {id : ProductionId} {support : List Triple} {t : Triple}
    (ht : net.Noted id support t) : net'.Noted id support t := by
  refine ⟨h.memory.subset ht.1, fun hin => ?_⟩
  obtain ⟨j, hj, hpair⟩ := ht.2 (h.inferred t ht.1 hin)
  exact ⟨j, (h.justified t).subset hj, hpair⟩

/-! ### Assertions -/

section
variable (hrecord : net.options.recordProvenance = true)
  (halternates : net.options.recordAlternates = true)
include hrecord halternates

theorem assertDerived_of_known {t : Triple} (ht : t ∈ net.workingMemory.toList) (j : Justification) :
    net.assertDerived j t = if net.inferred.contains t then
      { net with provenance := (net.provenance.record t j true).1 } else net := by
  have hcontains : net.workingMemory.contains t = true := Graph.contains_iff.mpr ht
  rw [assertDerived, if_pos hcontains, hrecord, halternates]
  rfl

theorem assertDerived_of_new {t : Triple} (ht : t ∉ net.workingMemory.toList) (j : Justification) :
    net.assertDerived j t = { net with
      workingMemory := net.workingMemory.insert t
      inferred := net.inferred.insert t
      provenance := (net.provenance.record t j true).1
      agenda := .fact t :: net.agenda } := by
  have hcontains : ¬net.workingMemory.contains t = true := fun h => ht (Graph.contains_iff.mp h)
  rw [assertDerived, if_neg hcontains, hrecord, halternates]
  rfl

/-- An assertion notes the justification. -/
theorem assertDerived_notes (j : Justification) (t : Triple) :
    Notes net (net.assertDerived j t) ∧
      (net.assertDerived j t).Noted j.production j.support t := by
  by_cases ht : t ∈ net.workingMemory.toList
  · rw [assertDerived_of_known hrecord halternates ht]
    split
    · exact ⟨⟨List.prefix_rfl, fun _ _ h => h, net.provenance.prefix_record t j⟩, ht,
        fun _ => net.provenance.exists_record t j⟩
    · rename_i hnot
      exact ⟨.refl net, ht, fun hin => absurd (Graph.contains_iff.mpr hin) hnot⟩
  · rw [assertDerived_of_new hrecord halternates ht]
    have hmemory := toList_insert_of_new ht
    refine ⟨⟨?_, fun u hu hin => ?_, net.provenance.prefix_record t j⟩, ?_,
      fun _ => net.provenance.exists_record t j⟩
    · dsimp only
      rw [hmemory]
      exact List.prefix_append ..
    · exact ((mem_insert _ t u).mp hin).resolve_right fun heq => ht (heq ▸ hu)
    · dsimp only
      rw [hmemory]
      simp

/-- An assertion that the justification bears out keeps the books. -/
theorem Books.assertDerived (h : net.Books) {j : Justification} {t : Triple} {facts : List Triple}
    (hfacts : ∀ u ∈ facts, u ∈ net.workingMemory.toList)
    (hj : net.Justifies facts j.production j.support t)
    (hlabel : ∀ rule, net.rule? j.production = some rule → j.rule = rule.label) :
    (net.assertDerived j t).Books := by
  by_cases ht : t ∈ net.workingMemory.toList
  · rw [assertDerived_of_known hrecord halternates ht]
    split
    · rename_i hcontains
      have hin : t ∈ net.inferred.toList := Graph.contains_iff.mp hcontains
      refine ⟨?_, fun u => Provenance.nodup_record (h.once u), fun u k hk => ?_, fun u hu => ?_⟩
      · rw [Provenance.keys_record, if_pos (h.keys ▸ hin)]
        exact h.keys
      · rcases Provenance.mem_record hk with hk | ⟨rfl, rfl⟩
        · exact h.sound u k hk
        · exact ⟨hj.mono hfacts, hlabel⟩
      · obtain ⟨k, _, before, after, hjs, hrest⟩ := h.first u hu
        obtain ⟨more, hmore⟩ := Provenance.exists_record_of_cons hjs
        exact ⟨k, more, before, after, hmore, hrest⟩
    · exact h
  · have hmemory := toList_insert_of_new ht
    have hnot : t ∉ net.inferred.toList := fun hin => ht (h.mem_memory hin)
    have hgrows : Grows net { net with
        workingMemory := net.workingMemory.insert t
        agenda := .fact t :: net.agenda } :=
      ⟨rfl, fun _ _ hr => hr, hmemory ▸ List.prefix_append _ _, fun _ hu => hu, List.prefix_rfl⟩
    have hgrown := h.grow hgrows rfl rfl
    rw [assertDerived_of_new hrecord halternates ht]
    refine ⟨?_, fun u => Provenance.nodup_record (h.once u), fun u k hk => ?_, fun u hu => ?_⟩
    · dsimp only
      rw [Provenance.keys_record, if_neg (h.keys ▸ hnot), Graph.toList_insert, if_neg hnot, h.keys]
    · rcases Provenance.mem_record hk with hk | ⟨rfl, rfl⟩
      · exact hgrown.sound u k hk
      · exact ⟨(hgrows.justifies hj).mono fun v hv => hgrows.memory.subset (hfacts v hv), hlabel⟩
    · rcases (mem_insert _ t u).mp hu with hu | rfl
      · obtain ⟨k, _, before, after, hjs, hrest⟩ := hgrown.first u hu
        obtain ⟨more, hmore⟩ := Provenance.exists_record_of_cons hjs
        exact ⟨k, more, before, after, hmore, hrest⟩
      · have hempty : net.provenance.justifications u = [] :=
          Buckets.find_eq_nil (h.keys ▸ hnot)
        have hunknown : net.provenance.knows u j = false := by
          rw [Provenance.knows, hempty]
          rfl
        refine ⟨j, [], net.workingMemory.toList, [], ?_, hmemory, fun v hv => ?_⟩
        · rw [Provenance.record_of_unknown hunknown, Provenance.justifications, Buckets.find_add,
            if_pos rfl, ← Provenance.justifications, hempty]
          rfl
        · obtain ⟨_, _, _, _, hsupport, _⟩ := hj
          exact hfacts v (hsupport v hv)

end

/-- Asserting an atom of a head keeps the books and notes its instance. -/
theorem Books.assertAtom (h : net.Books) (hrecord : net.options.recordProvenance = true)
    (halternates : net.options.recordAlternates = true) (b : Binding) {j : Justification}
    {pattern : Triple} {facts : List Triple} (hfacts : ∀ u ∈ facts, u ∈ net.workingMemory.toList)
    (hj : ∀ t, pattern.substitute b = .ok t → net.Justifies facts j.production j.support t)
    (hlabel : ∀ rule, net.rule? j.production = some rule → j.rule = rule.label) :
    (net.assertHead b j pattern).Books ∧ Notes net (net.assertHead b j pattern) ∧
      ∀ t, pattern.substitute b = .ok t →
        (net.assertHead b j pattern).Noted j.production j.support t := by
  unfold assertHead
  split
  · rename_i t ht
    obtain ⟨hnotes, hnoted⟩ := assertDerived_notes hrecord halternates j t
    refine ⟨h.assertDerived hrecord halternates hfacts (hj t ht) hlabel, hnotes, fun u hu => ?_⟩
    cases ht.symm.trans hu
    exact hnoted
  · rename_i hunbound
    have hsame : Grows net { net with discardedHeads := net.discardedHeads + 1 } :=
      .of_same rfl rfl rfl rfl
    refine ⟨h.grow hsame rfl rfl, .of_same hsame rfl rfl, fun t ht => ?_⟩
    cases hunbound.symm.trans ht

/-- Asserting a head keeps the books and notes every instance. -/
theorem Books.assertHeads (b : Binding) (j : Justification) (head : List Triple)
    {facts : List Triple} (h : net.Books) (hrecord : net.options.recordProvenance = true)
    (halternates : net.options.recordAlternates = true)
    (hfacts : ∀ u ∈ facts, u ∈ net.workingMemory.toList)
    (hj : ∀ atom ∈ head, ∀ t, atom.substitute b = .ok t →
      net.Justifies facts j.production j.support t)
    (hlabel : ∀ rule, net.rule? j.production = some rule → j.rule = rule.label) :
    (head.foldl (assertHead b j) net).Books ∧ Notes net (head.foldl (assertHead b j) net) ∧
      ∀ atom ∈ head, ∀ t, atom.substitute b = .ok t →
        (head.foldl (assertHead b j) net).Noted j.production j.support t := by
  induction head generalizing net with
  | nil => exact ⟨h, .refl net, by simp⟩
  | cons pattern rest ih =>
    have hskeleton := skeleton_assertHead b j net pattern
    obtain ⟨_, hasserted, _⟩ := assertHeads_spec b j [pattern] net
    have hgrows : Grows net (net.assertHead b j pattern) := hasserted.grows hskeleton
    obtain ⟨hbooks, hnotes, hnoted⟩ := h.assertAtom hrecord halternates b hfacts
      (hj pattern (List.mem_cons_self ..)) hlabel
    have hoptions := options_of_skeleton_eq hskeleton
    obtain ⟨hfinal, hmore, hall⟩ := ih hbooks (hoptions ▸ hrecord) (hoptions ▸ halternates)
      (fun u hu => hgrows.memory.subset (hfacts u hu))
      (fun atom hatom t ht => hgrows.justifies (hj atom (List.mem_cons_of_mem _ hatom) t ht))
      (fun rule hrule => hlabel rule ((rule?_of_skeleton_eq hskeleton _).symm.trans hrule))
    rw [List.foldl_cons]
    refine ⟨hfinal, hnotes.trans hmore, fun atom hatom t ht => ?_⟩
    rcases List.mem_cons.mp hatom with rfl | hatom
    · exact (hnoted t ht).mono hmore
    · exact hall atom hatom t ht

/-! ### Credit -/

/-- All conclusions of a firing are noted. -/
def Credited (net : Network) (id : ProductionId) (i : Instantiation) : Prop :=
  ∃ rule fresh, net.rule? id = some rule ∧ net.witnesses id rule i.support = some fresh ∧
    ∀ atom ∈ rule.head, ∀ t, atom.substitute (i.binding.insertAllIfNew fresh) = .ok t →
      net.Noted id i.support t

theorem Credited.mono (hgrows : Grows net net') (hnotes : Notes net net') {id : ProductionId}
    {i : Instantiation} (h : net.Credited id i) : net'.Credited id i := by
  obtain ⟨rule, fresh, hrule, hfresh, hall⟩ := h
  exact ⟨rule, fresh, hgrows.rules id rule hrule, hgrows.witnesses hfresh,
    fun atom hatom t ht => (hall atom hatom t ht).mono hnotes⟩

/-- **A firing on a match keeps the books and is credited.** -/
theorem Books.fire (h : net.Books) (hrecord : net.options.recordProvenance = true)
    (halternates : net.options.recordAlternates = true) {id : ProductionId} {rule : HornRule}
    (hrule : net.rule? id = some rule) {i : Instantiation}
    (hsupport : ∀ t ∈ i.support, t ∈ net.workingMemory.toList)
    (hmatch : Matches net.builtins rule.body i.support i.binding) :
    (net.fire id i).Books ∧ Grows net (net.fire id i) ∧ Notes net (net.fire id i) ∧
      (net.fire id i).Credited id i := by
  obtain ⟨p, hp, rfl⟩ := Option.map_eq_some_iff.mp hrule
  obtain ⟨hkept, _, hwitnesses⟩ := minting_spec net id p i
  have hgrows := grows_ready hp i
  have hfresh := hwitnesses (net.ready id p i) rfl
  have hready := hgrows.rules id p.rule hrule
  rw [fire_eq hp]
  obtain ⟨hbooks, hnotes, hall⟩ := (h.grow hgrows rfl rfl).assertHeads
    (i.binding.insertAllIfNew (net.minting id p i).2) ⟨id, p.rule.label, i.support⟩ p.rule.head
    hrecord halternates (fun u hu => hu)
    (fun atom hatom t ht => ⟨p.rule, i.binding, _, hready, hsupport, hmatch, hfresh, atom, hatom, ht⟩)
    fun rule hrule' => by cases hrule'.symm.trans hready; rfl
  obtain ⟨_, hasserted, _⟩ := assertHeads_spec (i.binding.insertAllIfNew (net.minting id p i).2)
    ⟨id, p.rule.label, i.support⟩ p.rule.head (net.ready id p i)
  have hmore : Grows (net.ready id p i) _ := hasserted.grows (skeleton_assertHeads _ _ _ p.rule.head)
  exact ⟨hbooks, hgrows.trans hmore, (Notes.of_same hgrows rfl rfl).trans hnotes,
    p.rule, _, hmore.rules id _ hready, hmore.witnesses hfresh, hall⟩

/-- What stays on the agenda while an activation is performed. -/
theorem suffix_perform (net : Network) (a : Activation) :
    net.agenda <:+ (net.perform a).agenda := by
  cases a with
  | fact t => exact List.suffix_append ..
  | left id i =>
    simp only [perform, leftActivate]
    split
    · exact List.suffix_rfl
    · split <;> exact List.suffix_append ..
  | right id m =>
    simp only [perform, rightActivate]
    split
    · exact List.suffix_rfl
    · exact List.suffix_append ..
  | fire id i =>
    cases hp : net.production? id with
    | none =>
      have heq : net.perform (.fire id i) = net := by rw [perform, fire, hp]
      exact heq.symm ▸ List.suffix_rfl
    | some p =>
      obtain ⟨_, _, _, hasserted, _⟩ := fire_spec hp i
      rw [perform, hasserted.agenda]
      exact List.suffix_append ..

/-- The books are right, and whatever fired is credited; a truth is credited, about to fire or
pending. -/
structure Recorded (net : Network) (log : List Activation) (pending : List ProductionId) :
    Prop where
  books : net.Books
  fired : ∀ id i, .fire id i ∈ log → net.Credited id i
  truth : ∀ id ∈ net.truths, id ∈ pending ∨ .fire id {} ∈ net.agenda ∨ net.Credited id {}

namespace Recorded

/-- A record holds of a network that knows as much. -/
theorem of_same (h : net.Recorded log pending) (hgrows : Grows net net')
    (hinferred : net'.inferred = net.inferred) (hprovenance : net'.provenance = net.provenance)
    (htruths : net'.truths = net.truths) {log' : List Activation} (hlog : log' ⊆ log)
    {pending' : List ProductionId}
    (hpending : ∀ id, id ∈ pending ∨ .fire id {} ∈ net.agenda →
      id ∈ pending' ∨ .fire id {} ∈ net'.agenda) : net'.Recorded log' pending' where
  books := h.books.grow hgrows hinferred hprovenance
  fired id i hfire := (h.fired id i (hlog hfire)).mono hgrows (.of_same hgrows hinferred hprovenance)
  truth id hid := by
    rw [htruths] at hid
    rcases h.truth id hid with hin | hin | hin
    · exact (hpending id (.inl hin)).imp_right .inl
    · exact (hpending id (.inr hin)).imp_right .inl
    · exact .inr (.inr (hin.mono hgrows (.of_same hgrows hinferred hprovenance)))

/-- When nothing is pending and nothing on the agenda, every truth is credited. -/
theorem credited_of_truth (h : net.Recorded log []) (hidle : net.agenda = []) {id : ProductionId}
    (hid : id ∈ net.truths) : net.Credited id {} := by
  rcases h.truth id hid with hin | hin | hin
  · exact absurd hin List.not_mem_nil
  · rw [hidle] at hin
    exact absurd hin List.not_mem_nil
  · exact hin

/-- Compiled rules keep the record; new truths are pending. -/
theorem compiled (h : net.Recorded log []) (hidle : net.agenda = []) {kept : List HornRule}
    {added : List ProductionId} (hc : Compiled net net' kept added) {log' : List Activation}
    (hlog : log' ⊆ log) : net'.Recorded log' (added.filter net'.isTruth) where
  books := h.books.grow hc.grown.grows hc.grown.inferred hc.grown.provenance
  fired id i hfire := (h.fired id i (hlog hfire)).mono hc.grown.grows
    (.of_same hc.grown.grows hc.grown.inferred hc.grown.provenance)
  truth id hid := by
    have htruth := isTruth_iff.mpr (hc.wired.production.mem_truths.mp hid)
    rcases hc.truths id hid with hold | hnew
    · exact .inr (.inr ((h.credited_of_truth hidle hold).mono hc.grown.grows
        (.of_same hc.grown.grows hc.grown.inferred hc.grown.provenance)))
    · exact .inl (List.mem_filter.mpr ⟨hnew, htruth⟩)

/-- **Every activation keeps the record.** -/
theorem perform {fed : List Triple} {started : List Activation} {owed : List Triple}
    (h : net.Recorded log pending) (hr : Running net fed log started owed)
    (hrecord : net.options.recordProvenance = true)
    (halternates : net.options.recordAlternates = true) {a : Activation} {rest : List Activation}
    (hagenda : net.agenda = a :: rest) :
    ({ net with agenda := rest }.perform a).Recorded (log ++ [a]) pending := by
  have hskeleton : ({ net with agenda := rest }.perform a).skeleton = net.skeleton :=
    (skeleton_perform _ a).trans (skeleton_agenda net rest)
  have htruths := truths_of_skeleton_eq hskeleton
  have hpopped : Grows net { net with agenda := rest } := .of_same rfl rfl rfl rfl
  have hrest : rest ⊆ ({ net with agenda := rest }.perform a).agenda :=
    (suffix_perform { net with agenda := rest } a).subset
  have hother : (∀ id i, a ≠ .fire id i) →
      ({ net with agenda := rest }.perform a).Recorded (log ++ [a]) pending := by
    intro hnot
    have hsame := perform_same { net with agenda := rest } hnot
    have hgrows := Grows.of_same hskeleton hsame.memory hsame.inferred hsame.skolem
    have hkept : ({ net with agenda := rest }.perform a).Recorded log pending := by
      refine h.of_same hgrows hsame.inferred hsame.provenance htruths (List.Subset.refl log)
        fun id hid => hid.imp_right fun hin => ?_
      rw [hagenda] at hin
      exact hrest ((List.mem_cons.mp hin).resolve_left (Ne.symm (hnot id {})))
    refine ⟨hkept.books, fun id i hfire => ?_, hkept.truth⟩
    rcases List.mem_append.mp hfire with hfire | hfire
    · exact hkept.fired id i hfire
    · exact absurd (List.mem_singleton.mp hfire).symm (hnot id i)
  cases a with
  | fact t | left id i | right id m => exact hother (by simp)
  | fire id i =>
    have hnext : Activation.fire id i ∈ log ++ net.agenda := by
      rw [hagenda]
      simp
    obtain ⟨rule, hrule, hsupport, hmatch⟩ := hr.account.fire_sound hr.wired hnext
    obtain ⟨hbooks, hgrows, hnotes, hcredited⟩ := (h.books.grow hpopped rfl rfl).fire hrecord
      halternates hrule hsupport hmatch
    have hkept : ∀ other j, net.Credited other j →
        ({ net with agenda := rest }.fire id i).Credited other j := fun other j hj =>
      (hj.mono hpopped (.of_same hpopped rfl rfl)).mono hgrows hnotes
    refine ⟨hbooks, fun other j hfire => ?_, fun other hid => ?_⟩
    · rcases List.mem_append.mp hfire with hfire | hfire
      · exact hkept other j (h.fired other j hfire)
      · cases List.mem_singleton.mp hfire
        exact hcredited
    · rcases h.truth other (htruths ▸ hid) with hin | hin | hin
      · exact .inl hin
      · rw [hagenda] at hin
        rcases List.mem_cons.mp hin with heq | hin
        · cases heq
          exact .inr (.inr hcredited)
        · exact .inr (.inl (hrest hin))
      · exact .inr (.inr (hkept other {} hin))

end Recorded

end Network

open Network

variable {builtins : Registry} {options : NetworkOptions} {net net' : Network}

theorem Move.recorded {s s' : Stage} (h : Move net s net' s') (ih : net.Recorded s.log s.pending) :
    net'.Recorded s'.log s'.pending := by
  have hgrows := h.keeps.1
  cases h with
  | early hidle _ hc => exact ih.compiled hidle hc (List.nil_subset _)
  | quiet hidle _ hc => exact ih.compiled hidle hc (List.Subset.refl _)
  | @late other _ _ _ _ _ hidle hc =>
    have hcompiled := ih.compiled hidle hc (List.nil_subset _)
    exact hcompiled.of_same (.of_same other.skeleton_cleared rfl rfl rfl) rfl rfl rfl
      (List.Subset.refl _) fun _ hid => hid
  | fact =>
    exact ih.of_same hgrows rfl rfl rfl (List.Subset.refl _) fun _ hid =>
      hid.imp_right (List.mem_cons_of_mem _)
  | truth =>
    refine ih.of_same hgrows rfl rfl rfl (List.Subset.refl _) fun other hid => ?_
    rcases hid with hid | hid
    · rcases List.mem_cons.mp hid with rfl | hid
      · exact .inr (List.mem_cons_self ..)
      · exact .inl hid
    · exact .inr (List.mem_cons_of_mem _ hid)
  | insert | setCancellation =>
    exact ih.of_same hgrows rfl rfl rfl (List.Subset.refl _) fun _ hid => hid
  | offer => exact ih

/-- **With all justifications kept, every moment is recorded.** -/
theorem Course.recorded {s : Stage} (h : Course builtins options net s)
    (hrecord : options.recordProvenance = true) (halternates : options.recordAlternates = true) :
    net.Recorded s.log s.pending := by
  induction h with
  | new =>
    exact ⟨⟨rfl, fun _ => .nil, fun _ _ hj => absurd hj List.not_mem_nil,
      fun _ ht => absurd ht List.not_mem_nil⟩, fun _ _ hfire => absurd hfire List.not_mem_nil,
      fun _ hid => absurd hid List.not_mem_nil⟩
  | move _ hmove ih => exact hmove.recorded ih
  | perform hcourse hagenda ih =>
    obtain ⟨_, hrunning⟩ := hcourse.running
    obtain ⟨_, hoptions⟩ := hcourse.constant
    exact ih.perform hrunning (hoptions ▸ hrecord) (hoptions ▸ halternates) hagenda
  | forget _ _ =>
    exact ⟨⟨rfl, fun _ => .nil, fun _ _ hj => absurd hj List.not_mem_nil,
      fun _ ht => absurd ht List.not_mem_nil⟩, fun _ _ hfire => absurd hfire List.not_mem_nil,
      fun _ hid => .inl hid⟩

/-- **Provenance is exact and well founded.** With all justifications kept, the triples with
provenance are the inferred ones. The justifications of each have no repetitions, and a
production with a support is among them just if the support matches its body in the facts and
makes an atom of its head that triple. The first one uses facts that stand before the triple,
so every fact has a proof tree of first justifications, with facts that were fed at its leaves. -/
theorem History.provenance_exact {ledger : Ledger} (h : History builtins options net ledger)
    (hrecord : options.recordProvenance = true) (halternates : options.recordAlternates = true) :
    net.provenance.map Prod.fst = net.inferred.toList ∧
    (∀ t ∈ net.inferred.toList,
      ((net.provenance.justifications t).map fun j => (j.production, j.support)).Nodup ∧
      (∀ id support,
        (∃ j ∈ net.provenance.justifications t, j.production = id ∧ j.support = support) ↔
          ∃ p b fresh, net.production? id = some p ∧
            (∀ u ∈ support, u ∈ net.workingMemory.toList) ∧
            Matches builtins p.rule.body support b ∧
            (p.rule.existentials = [] ∧ fresh = [] ∨ p.rule.existentials ≠ [] ∧
              net.skolem.minted.lookup (id, Sorted.ofList support) = some fresh) ∧
            ∃ atom ∈ p.rule.head, atom.substitute (b.insertAllIfNew fresh) = .ok t) ∧
      ∃ j others before after, net.provenance.justifications t = j :: others ∧
        net.workingMemory.toList = before ++ t :: after ∧ ∀ u ∈ j.support, u ∈ before) ∧
    ∀ t ∈ net.workingMemory.toList, net.provenance.Proved ledger.facts t := by
  obtain ⟨hidle, log, replayed, hcourse, _⟩ := h.course
  have hrecorded := hcourse.recorded hrecord halternates
  obtain ⟨started, hrunning⟩ := hcourse.running
  have hbuiltins := hcourse.constant.1
  have hbooks := hrecorded.books
  have hcredited : ∀ id rule, net.rule? id = some rule → ∀ support b,
      (∀ t ∈ support, t ∈ net.workingMemory.toList) → Matches net.builtins rule.body support b →
      net.Credited id ⟨support, b⟩ := by
    intro id rule hrule support b hsupport hmatch
    rcases hrunning.account.fires_of_matches hrunning.wired hidle hrule hsupport hmatch with
      ⟨htruth, rfl, rfl⟩ | hfired
    · exact hrecorded.credited_of_truth hidle htruth
    · exact hrecorded.fired id _ hfired
  refine ⟨hbooks.keys, fun t ht => ⟨hbooks.once t, fun id support => ⟨?_, ?_⟩, hbooks.first t ht⟩, ?_⟩
  · rintro ⟨j, hj, rfl, rfl⟩
    obtain ⟨⟨rule, b, fresh, hrule, hsupport, hmatch, hfresh, hhead⟩, _⟩ := hbooks.sound t j hj
    obtain ⟨p, hp, rfl⟩ := Option.map_eq_some_iff.mp hrule
    exact ⟨p, b, fresh, hp, hsupport, hbuiltins ▸ hmatch, witnesses_eq_some_iff.mp hfresh, hhead⟩
  · rintro ⟨p, b, fresh, hp, hsupport, hmatch, hfresh, atom, hatom, hinstance⟩
    have hrule := rule?_of_production? hp
    obtain ⟨rule, fresh', hrule', hfresh', hall⟩ :=
      hcredited id p.rule hrule support b hsupport (hbuiltins ▸ hmatch)
    cases hrule.symm.trans hrule'
    cases (witnesses_eq_some_iff.mpr hfresh).symm.trans hfresh'
    exact (hall atom hatom t hinstance).2 ht
  · refine forall_mem_of_before net.workingMemory.nodup fun t ht => ?_
    by_cases hin : t ∈ net.inferred.toList
    · obtain ⟨j, others, before, after, hjs, hsplit, hbefore⟩ := hbooks.first t hin
      exact ⟨before, after, hsplit, fun hproved => .first hjs fun u hu => hproved u (hbefore u hu)⟩
    · obtain ⟨before, after, hsplit⟩ := List.append_of_mem ht
      refine ⟨before, after, hsplit, fun _ => .fed ?_ (Buckets.find_eq_nil (hbooks.keys ▸ hin))⟩
      exact (hrunning.grounded.origin t ht).resolve_right hin

/-- Two ways from `a` to `d`: each is noted, and the transitive relation has no other. -/
theorem History.provenance_exact_of_chain : ∃ net ledger, History ∅ {} net ledger ∧
    net.provenance.map Prod.fst = [⟨.iri "a", .iri "p", .iri "c"⟩, ⟨.iri "a", .iri "p", .iri "d"⟩,
      ⟨.iri "b", .iri "p", .iri "d"⟩] ∧
    (∀ support, (∃ j ∈ net.provenance.justifications ⟨.iri "a", .iri "p", .iri "d"⟩,
        j.production = ⟨0⟩ ∧ j.support = support) ↔
      ∃ p b fresh, net.production? ⟨0⟩ = some p ∧
        (∀ u ∈ support, u ∈ net.workingMemory.toList) ∧ Matches ∅ p.rule.body support b ∧
        (p.rule.existentials = [] ∧ fresh = [] ∨ p.rule.existentials ≠ [] ∧
          net.skolem.minted.lookup (⟨0⟩, Sorted.ofList support) = some fresh) ∧
        ∃ atom ∈ p.rule.head,
          atom.substitute (b.insertAllIfNew fresh) = .ok ⟨.iri "a", .iri "p", .iri "d"⟩) ∧
    (net.provenance.justifications ⟨.iri "a", .iri "p", .iri "d"⟩).length = 2 := by
  have hrun : (Network.ofRule transitivity 20 (chain ++ [⟨.iri "c", .iri "p", .iri "d"⟩])).map
      (fun e => (e.1.inferred.toList,
        (e.1.provenance.justifications ⟨.iri "a", .iri "p", .iri "d"⟩).length)) =
        some ([⟨.iri "a", .iri "p", .iri "c"⟩, ⟨.iri "a", .iri "p", .iri "d"⟩,
          ⟨.iri "b", .iri "p", .iri "d"⟩], 2) := by decide +kernel
  obtain ⟨⟨net, result⟩, hcalls, heq⟩ := Option.map_eq_some_iff.mp hrun
  obtain ⟨hinferred, hlength⟩ := Prod.mk.inj heq
  obtain ⟨ledger, h, _⟩ := History.of_ofRule hcalls
  obtain ⟨hkeys, hall, _⟩ := h.provenance_exact rfl rfl
  have hin : (⟨.iri "a", .iri "p", .iri "d"⟩ : Triple) ∈ net.inferred.toList := by
    rw [hinferred]
    simp
  exact ⟨net, ledger, h, hkeys.trans hinferred, (hall _ hin).2.1 ⟨0⟩, hlength⟩

end HornReasoner
