import HornReasoner.Proofs.Network.Course
import HornReasoner.Proofs.Rdf.Renaming
import Mathlib.Data.List.Pairwise

/-! The table of blank nodes.

Numbers are given out in ascending order, so a blank node of the table belongs to one variable
of one entry (`SkolemTable.Orderly.eq_of_blank`). An entry is made when its production fires on
a match in the facts, and is kept under the production and the match's facts
(`Course.tabled`). -/
namespace HornReasoner

namespace SkolemTable

/-- A production and a set of facts, with the values of the existential variables. -/
abbrev Entry := (ProductionId × List Triple) × List (Variable × Term)

/-- The blank nodes of all entries. -/
def blanks (s : SkolemTable) : List Term := s.minted.flatMap fun e => e.2.map Prod.snd

/-- A blank node that the table has minted or may come to mint. -/
def Mintable (s : SkolemTable) (x : Term) : Prop := ∃ n, x = blank s.stem n

theorem mem_blanks_of_lookup {s : SkolemTable} {e : Entry} (he : e ∈ s.minted) {v : Variable}
    {x : Term} (hx : SortedMap.lookup v e.2 = some x) : x ∈ s.blanks :=
  List.mem_flatMap.mpr ⟨e, he, List.mem_map.mpr ⟨(v, x), SortedMap.mem_of_lookup hx, rfl⟩⟩

theorem Mintable.isBlank {s : SkolemTable} {x : Term} (h : s.Mintable x) : x.isBlank = true := by
  obtain ⟨n, rfl⟩ := h
  rfl

/-- Keys are distinct, their facts are sorted, and the blank nodes are numbered in ascending
order. -/
structure Orderly (s : SkolemTable) : Prop where
  keys : (s.minted.map Prod.fst).Nodup
  sorted : ∀ e ∈ s.minted, ∃ support, e.1.2 = Sorted.ofList support
  numbers : ∃ ns : List Nat, s.blanks = ns.map (blank s.stem) ∧ ns.Pairwise (· < ·) ∧
    ∀ n ∈ ns, n ≤ s.counter

theorem blank_injective (stem : String) : Function.Injective (blank stem) := by
  intro m n h
  have hlabel := congrArg String.toList (Term.blank.inj h)
  simp only [String.toList_append] at hlabel
  exact toString_injective (String.toList_injective (List.append_cancel_left hlabel))

/-! ### Numbers -/

theorem lt_nextFree (stem : String) (used : List Term) (tries counter : Nat) :
    counter < nextFree stem used tries counter := by
  induction tries generalizing counter with
  | zero => exact Nat.lt_succ_self counter
  | succ tries ih =>
    rw [nextFree]
    split
    · exact (Nat.lt_succ_self counter).trans (ih (counter + 1))
    · exact Nat.lt_succ_self counter

/-- Numbers ascend from the counter to the last one given. -/
theorem mint_spec (stem : String) (used : List Term) (counter : Nat) (vs : List Variable) :
    counter ≤ (mint stem used counter vs).2 ∧ ∃ ns : List Nat,
      (mint stem used counter vs).1.map Prod.snd = ns.map (blank stem) ∧ ns.Pairwise (· < ·) ∧
      ∀ n ∈ ns, counter < n ∧ n ≤ (mint stem used counter vs).2 := by
  induction vs generalizing counter with
  | nil => exact ⟨Nat.le_refl _, [], rfl, .nil, fun _ hn => absurd hn List.not_mem_nil⟩
  | cons v rest ih =>
    have hfree := lt_nextFree stem used used.length counter
    obtain ⟨hlast, ns, hblanks, hascending, hbetween⟩ := ih (nextFree stem used used.length counter)
    rw [mint]
    refine ⟨hfree.le.trans hlast, _ :: ns, congrArg (_ :: ·) hblanks,
      List.pairwise_cons.mpr ⟨fun m hm => (hbetween m hm).1, hascending⟩, fun n hn => ?_⟩
    rcases List.mem_cons.mp hn with rfl | hn
    · exact ⟨hfree, hlast⟩
    · exact ⟨hfree.trans (hbetween n hn).1, (hbetween n hn).2⟩

namespace Orderly

variable {s : SkolemTable}

theorem empty (h : s.minted = []) : s.Orderly where
  keys := by simp [h]
  sorted := by simp [h]
  numbers := ⟨[], by simp [blanks, h], .nil, fun _ hn => absurd hn List.not_mem_nil⟩

/-- A new entry goes under a new key and has greater numbers. -/
theorem resolve (h : s.Orderly) (id : ProductionId) (support : List Triple) (vars : List Variable)
    (used : List Term) : (s.resolve id support vars used).1.Orderly := by
  unfold SkolemTable.resolve
  dsimp only
  cases hfound : s.minted.lookup (id, Sorted.ofList support) with
  | some fresh => exact h
  | none =>
    obtain ⟨hcounter, more, hmore, hascending, hbetween⟩ := mint_spec s.stem used s.counter vars
    obtain ⟨ns, hblanks, hsorted, hle⟩ := h.numbers
    refine ⟨?_, fun e he => ?_, ns ++ more, ?_, ?_, fun n hn => ?_⟩
    · rw [List.map_append, List.nodup_append]
      refine ⟨h.keys, List.nodup_singleton _, fun key hkey other hother => ?_⟩
      rintro rfl
      cases List.mem_singleton.mp hother
      obtain ⟨e, he, hkey⟩ := List.mem_map.mp hkey
      have hnone := List.lookup_eq_none_iff.mp hfound e he
      simp [hkey] at hnone
    · rcases List.mem_append.mp he with he | he
      · exact h.sorted e he
      · exact ⟨support, congrArg (·.1.2) (List.mem_singleton.mp he)⟩
    · rw [blanks, List.flatMap_append, List.map_append]
      exact congrArg₂ (· ++ ·) hblanks ((List.append_nil _).trans hmore)
    · exact List.pairwise_append.mpr ⟨hsorted, hascending, fun m hm n hn =>
        (hle m hm).trans_lt (hbetween n hn).1⟩
    · rcases List.mem_append.mp hn with hn | hn
      · exact (hle n hn).trans hcounter
      · exact (hbetween n hn).2

theorem mintable (h : s.Orderly) {x : Term} (hx : x ∈ s.blanks) : s.Mintable x := by
  obtain ⟨ns, hblanks, _⟩ := h.numbers
  obtain ⟨n, _, rfl⟩ := List.mem_map.mp (hblanks ▸ hx)
  exact ⟨n, rfl⟩

theorem nodup_blanks (h : s.Orderly) : s.blanks.Nodup := by
  obtain ⟨ns, hblanks, hsorted, _⟩ := h.numbers
  rw [hblanks]
  exact List.Nodup.map (blank_injective s.stem) (hsorted.imp fun hlt => hlt.ne)

/-- **A blank node belongs to one entry and one variable.** -/
theorem eq_of_blank (h : s.Orderly) {e e' : Entry} (he : e ∈ s.minted) (he' : e' ∈ s.minted)
    {v v' : Variable} {x : Term} (hv : (v, x) ∈ e.2) (hv' : (v', x) ∈ e'.2) : e = e' ∧ v = v' := by
  obtain ⟨hentries, hdisjoint⟩ := List.nodup_flatMap.mp h.nodup_blanks
  have : Std.Symm (Function.onFun List.Disjoint fun e : Entry => e.2.map Prod.snd) :=
    ⟨fun _ _ hab _ ha hb => hab hb ha⟩
  have hx : x ∈ e.2.map Prod.snd := List.mem_map.mpr ⟨_, hv, rfl⟩
  have hx' : x ∈ e'.2.map Prod.snd := List.mem_map.mpr ⟨_, hv', rfl⟩
  obtain rfl : e = e' := by
    by_contra hne
    exact hdisjoint.forall he he' hne hx hx'
  have hpair := List.inj_on_of_nodup_map (hentries e he) hv hv' rfl
  exact ⟨rfl, congrArg Prod.fst hpair⟩

theorem eq_of_key (h : s.Orderly) {e e' : Entry} (he : e ∈ s.minted) (he' : e' ∈ s.minted)
    (hkey : e.1 = e'.1) : e = e' :=
  List.inj_on_of_nodup_map h.keys he he' hkey

theorem lookup_eq (h : s.Orderly) {e : Entry} (he : e ∈ s.minted) :
    s.minted.lookup e.1 = some e.2 := by
  cases hfound : s.minted.lookup e.1 with
  | none =>
    have hnone := List.lookup_eq_none_iff.mp hfound e he
    simp at hnone
  | some fresh =>
    obtain ⟨before, after, hsplit, _⟩ := List.lookup_eq_some_iff.mp hfound
    have hmem : (e.1, fresh) ∈ s.minted := by
      rw [hsplit]
      simp
    rw [h.eq_of_key he hmem rfl]

/-- Keys with the same facts have them in the same order. -/
theorem facts_eq (h : s.Orderly) {e e' : Entry} (he : e ∈ s.minted) (he' : e' ∈ s.minted)
    (hfacts : ∀ t, t ∈ e.1.2 ↔ t ∈ e'.1.2) : e.1.2 = e'.1.2 := by
  obtain ⟨support, hsupport⟩ := h.sorted e he
  obtain ⟨support', hsupport'⟩ := h.sorted e' he'
  rw [hsupport, hsupport'] at hfacts ⊢
  exact Sorted.ofList_congr fun t => by rw [← Sorted.mem_ofList, hfacts, Sorted.mem_ofList]

end Orderly

end SkolemTable

open Network

namespace Network

variable {net net' : Network}

/-- Entries belong to matches in the facts. -/
structure Tabled (net : Network) : Prop where
  orderly : net.skolem.Orderly
  matched : ∀ e ∈ net.skolem.minted, ∃ rule support b, net.rule? e.1.1 = some rule ∧
    (∀ t ∈ support, t ∈ net.workingMemory.toList) ∧ Matches net.builtins rule.body support b ∧
    e.1.2 = Sorted.ofList support ∧ e.2.map Prod.fst = rule.existentials

theorem Tabled.empty (h : net.skolem.minted = []) : net.Tabled where
  orderly := .empty h
  matched e he := by
    rw [h] at he
    cases he

/-- Entries stay what they are when facts and rules come. -/
theorem Tabled.of_grows (h : net.Tabled) (hgrows : Grows net net') (horderly : net'.skolem.Orderly)
    (hnew : ∀ e ∈ net'.skolem.minted, e ∈ net.skolem.minted ∨ ∃ rule support b,
      net.rule? e.1.1 = some rule ∧ (∀ t ∈ support, t ∈ net.workingMemory.toList) ∧
      Matches net.builtins rule.body support b ∧ e.1.2 = Sorted.ofList support ∧
      e.2.map Prod.fst = rule.existentials) : net'.Tabled where
  orderly := horderly
  matched e he := by
    obtain ⟨rule, support, b, hrule, hsupport, hmatch, hentry⟩ :=
      (hnew e he).elim (h.matched e) id
    exact ⟨rule, support, b, hgrows.rules _ rule hrule,
      fun t ht => hgrows.memory.subset (hsupport t ht), hgrows.builtins ▸ hmatch, hentry⟩

theorem Tabled.of_same (h : net.Tabled) (hgrows : Grows net net')
    (hskolem : net'.skolem = net.skolem) : net'.Tabled :=
  h.of_grows hgrows (hskolem ▸ h.orderly) fun _ he => .inl (hskolem ▸ he)

theorem skolem_fire {id : ProductionId} {p : Production} (hp : net.production? id = some p)
    (i : Instantiation) : (net.fire id i).skolem = (net.minting id p i).1 := by
  rw [fire_eq hp]
  obtain ⟨_, hasserted, _⟩ := assertHeads_spec (i.binding.insertAllIfNew (net.minting id p i).2)
    ⟨id, p.rule.label, i.support⟩ p.rule.head (net.ready id p i)
  exact hasserted.skolem

theorem orderly_minting (h : net.skolem.Orderly) (id : ProductionId) (p : Production)
    (i : Instantiation) : (net.minting id p i).1.Orderly := by
  unfold minting
  split
  · exact h
  · exact h.resolve ..

/-- A firing on a match makes an entry for it. -/
theorem Tabled.fire (h : net.Tabled) {id : ProductionId} {rule : HornRule}
    (hrule : net.rule? id = some rule) {i : Instantiation} (hgrows : Grows net (net.fire id i))
    (hsupport : ∀ t ∈ i.support, t ∈ net.workingMemory.toList)
    (hmatch : Matches net.builtins rule.body i.support i.binding) : (net.fire id i).Tabled := by
  obtain ⟨p, hp, rfl⟩ := Option.map_eq_some_iff.mp hrule
  refine h.of_grows hgrows (skolem_fire hp i ▸ orderly_minting h.orderly id p i) fun e he => ?_
  rw [skolem_fire hp] at he
  refine ((minting_spec net id p i).2.1 e he).imp_right fun ⟨hkey, hvars⟩ => ?_
  exact ⟨p.rule, i.support, i.binding, hkey ▸ hrule, hsupport, hmatch, congrArg Prod.snd hkey, hvars⟩

end Network

variable {builtins : Registry} {options : NetworkOptions} {net : Network} {s : Stage}

/-- **At every moment the table is in order**, and its entries belong to matches in the facts. -/
theorem Course.tabled (h : Course builtins options net s) : net.Tabled := by
  induction h with
  | new => exact .empty rfl
  | move _ hmove ih => exact ih.of_same hmove.keeps.1 hmove.keeps.2
  | @perform net _ a rest hcourse hagenda ih =>
    have hpopped : Grows net { net with agenda := rest } := .of_same rfl rfl rfl rfl
    have hready : ({ net with agenda := rest } : Network).Tabled := ih.of_same hpopped rfl
    have hother : (∀ id i, a ≠ .fire id i) → ({ net with agenda := rest }.perform a).Tabled := by
      intro hnot
      have hsame := perform_same { net with agenda := rest } hnot
      exact hready.of_same (.of_same (skeleton_perform _ a) hsame.memory hsame.inferred hsame.skolem)
        hsame.skolem
    cases a with
    | fact t | left id i | right id m => exact hother (by simp)
    | fire id i =>
      obtain ⟨_, hrunning⟩ := hcourse.running
      obtain ⟨rule, hrule, hsupport, hmatch⟩ := hcourse.fire_sound
        (List.mem_append_right _ (hagenda ▸ List.mem_cons_self ..))
      have hgrows := (fire_grows (hrunning.grounded.of_same hpopped rfl rfl rfl) hrule hsupport
        hmatch).1
      exact hready.fire hrule hgrows hsupport hmatch
  | forget _ _ => exact .empty rfl

end HornReasoner
