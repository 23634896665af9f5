import HornReasoner.Proofs.Network.Freshness
import Mathlib.Data.Set.Card

/-! The count of minted blank nodes.

The statistic counts the entries of the table. There is one for each production and set of facts
that blank nodes were minted for, with a blank node for each existential variable. So the count
falls short by what an entry has beyond its first blank node, and is right exactly as long as no
production that fired has two existential variables (`History.mintedBlanks_exact`). -/
namespace HornReasoner
open Network

namespace SkolemTable

/-- A blank node for each value of each entry. -/
theorem length_blanks (s : SkolemTable) :
    s.blanks.length = (s.minted.map fun e => e.2.length).sum := by
  simp [blanks, List.length_flatMap]

/-- An entry has a value. -/
def Valued (s : SkolemTable) : Prop := ∀ e ∈ s.minted, e.2 ≠ []

/-- With a value in every entry there are as many blank nodes as entries, or more; as many only
if no entry has two. -/
theorem Valued.size_le {s : SkolemTable} (h : s.Valued) : s.size ≤ s.blanks.length ∧
    (s.size = s.blanks.length ↔ ∀ e ∈ s.minted, e.2.length ≤ 1) := by
  rw [length_blanks, size]
  unfold Valued at h
  generalize s.minted = entries at h
  induction entries with
  | nil => simp
  | cons e rest ih =>
    obtain ⟨hfirst, hrest⟩ := List.forall_mem_cons.mp h
    obtain ⟨hle, hiff⟩ := ih hrest
    have hvalue : 0 < e.2.length := List.length_pos_iff.mpr hfirst
    rw [List.length_cons, List.map_cons, List.sum_cons, List.forall_mem_cons, ← hiff]
    omega

end SkolemTable

/-- A firing makes an entry only for existential variables. -/
theorem Network.mem_minting {net : Network} {id : ProductionId} {p : Production} {i : Instantiation}
    {e : SkolemTable.Entry} (he : e ∈ (net.minting id p i).1.minted) :
    e ∈ net.skolem.minted ∨ e.2 ≠ [] := by
  by_cases hempty : p.rule.existentials.isEmpty = true
  · rw [minting, if_pos hempty] at he
    exact .inl he
  · refine ((minting_spec net id p i).2.1 e he).imp_right fun ⟨_, hvars⟩ hnone => hempty ?_
    rw [← hvars, hnone]
    rfl

/-- The blank nodes that firings got. -/
def Firing.minted (firings : List Firing) : Set Term := {x | ∃ f ∈ firings, x ∈ f.blanks}

/-- The productions and sets of facts that firings got blank nodes for. -/
def Firing.mintedFor (firings : List Firing) : Set (ProductionId × List Triple) :=
  {key | ∃ f ∈ firings, f.values ≠ [] ∧ f.entry.1 = key}

variable {builtins : Registry} {options : NetworkOptions} {net : Network} {s : Stage}
  {firings : List Firing}

theorem Fired.valued (h : Fired builtins options net s firings) : net.skolem.Valued := by
  induction h with
  | new | forget => exact fun e he => absurd he List.not_mem_nil
  | move _ hmove ih => exact hmove.keeps.2 ▸ ih
  | @perform net _ _ a rest _ _ ih =>
    have hready : ({ net with agenda := rest } : Network).skolem.Valued := ih
    generalize ({ net with agenda := rest } : Network) = ready at hready
    cases a with
    | fact t | left id i | right id m =>
      rw [(perform_same ready (by simp)).skolem]
      exact hready
    | fire id i =>
      show (ready.fire id i).skolem.Valued
      cases hp : ready.production? id with
      | none =>
        rw [fire, hp]
        exact hready
      | some p =>
        intro e he
        rw [skolem_fire hp] at he
        exact (mem_minting he).elim (hready e) fun hvalue => hvalue

/-- The table has the blank nodes that firings got, and no others. -/
theorem Fired.mem_blanks_iff (h : Fired builtins options net s firings) {x : Term} :
    x ∈ net.skolem.blanks ↔ x ∈ Firing.minted firings := by
  constructor
  · intro hx
    obtain ⟨e, he, hx⟩ := List.mem_flatMap.mp hx
    obtain ⟨f, hf, rfl⟩ := h.chronicled.told e he
    exact ⟨f, hf, hx⟩
  · rintro ⟨f, hf, hx⟩
    obtain ⟨value, hvalue, -⟩ := List.mem_map.mp hx
    exact List.mem_flatMap.mpr ⟨f.entry, h.chronicled.entry_mem hf hvalue, hx⟩

theorem Fired.mem_keys_iff (h : Fired builtins options net s firings)
    {key : ProductionId × List Triple} :
    key ∈ net.skolem.minted.map Prod.fst ↔ key ∈ Firing.mintedFor firings := by
  constructor
  · intro hkey
    obtain ⟨e, he, rfl⟩ := List.mem_map.mp hkey
    obtain ⟨f, hf, rfl⟩ := h.chronicled.told e he
    exact ⟨f, hf, h.valued _ he, rfl⟩
  · rintro ⟨f, hf, hvalues, rfl⟩
    exact List.mem_map.mpr ⟨f.entry, (h.chronicled.kept f hf).resolve_left hvalues, rfl⟩

/-- A list without repetitions has as many members as its length. -/
theorem ncard_eq_length {α : Type} {S : Set α} {as : List α} (hnodup : as.Nodup)
    (hmem : ∀ a, a ∈ as ↔ a ∈ S) : S.ncard = as.length := by
  classical
  have hset : S = ↑as.toFinset := by
    ext a
    simp [hmem]
  rw [hset, Set.ncard_coe_finset, List.toFinset_card_of_nodup hnodup]

/-- An entry with two values is that of a firing with two existential variables. -/
theorem Fired.length_le_one_iff (h : Fired builtins options net s firings) :
    (∀ e ∈ net.skolem.minted, e.2.length ≤ 1) ↔
      ∀ f ∈ firings, ∀ rule, net.rule? f.production = some rule → rule.existentials.length ≤ 1 := by
  have hlength : ∀ f ∈ firings, ∃ rule, net.rule? f.production = some rule ∧
      f.values.length = rule.existentials.length := fun f hf => by
    obtain ⟨rule, hrule, hvars⟩ := h.chronicled.vars f hf
    exact ⟨rule, hrule, by rw [← hvars, List.length_map]⟩
  constructor
  · intro hentries f hf rule hrule
    obtain ⟨other, hother, hvalues⟩ := hlength f hf
    cases hrule.symm.trans hother
    rw [← hvalues]
    rcases h.chronicled.kept f hf with hnone | hentry
    · simp [hnone]
    · exact hentries f.entry hentry
  · intro hrules e he
    obtain ⟨f, hf, rfl⟩ := h.chronicled.told e he
    obtain ⟨rule, hrule, hvalues⟩ := hlength f hf
    exact hvalues.trans_le (hrules f hf rule hrule)

/-- **What the count of minted blank nodes is.** Between calls it is the number of productions
and sets of facts that blank nodes were minted for since the last reset. So it is at most the
number of blank nodes minted, and that number exactly as long as no production that fired has two
existential variables. -/
theorem History.mintedBlanks_exact {ledger : Ledger} (h : History builtins options net ledger) :
    (∃ s firings, s.fed = ledger.facts ∧ Fired builtins options net s firings) ∧
    ∀ s firings, Fired builtins options net s firings →
      net.stats.mintedBlanks = (Firing.mintedFor firings).ncard ∧
      net.stats.mintedBlanks ≤ (Firing.minted firings).ncard ∧
      (net.stats.mintedBlanks = (Firing.minted firings).ncard ↔ ∀ f ∈ firings, ∀ rule,
        net.rule? f.production = some rule → rule.existentials.length ≤ 1) := by
  obtain ⟨_, log, replayed, hcourse, _⟩ := h.course
  obtain ⟨firings, hfired⟩ := hcourse.exists_fired
  refine ⟨⟨_, firings, rfl, hfired⟩, fun s firings hfired => ?_⟩
  have horderly := hfired.course.tabled.orderly
  have hblanks := ncard_eq_length horderly.nodup_blanks fun _ => hfired.mem_blanks_iff
  have hkeys := ncard_eq_length horderly.keys fun _ => hfired.mem_keys_iff
  rw [List.length_map] at hkeys
  obtain ⟨hle, hiff⟩ := hfired.valued.size_le
  rw [hblanks, hkeys, ← hfired.length_le_one_iff, ← hiff]
  exact ⟨rfl, hle, Iff.rfl⟩

/-- Each `p` leads to something that `r` relates to something. -/
def pairing : HornRule :=
  .ofAtoms "pairing" [⟨.var ⟨"x"⟩, .iri "p", .var ⟨"y"⟩⟩]
    [⟨.var ⟨"y"⟩, .iri "q", .var ⟨"u"⟩⟩, ⟨.var ⟨"u"⟩, .iri "r", .var ⟨"v"⟩⟩]

/-- Two blank nodes of one firing are counted as one. -/
theorem History.mintedBlanks_of_pairing : ∃ net ledger s firings, History ∅ {} net ledger ∧
    Fired ∅ {} net s firings ∧ net.stats.mintedBlanks = 1 ∧ (Firing.minted firings).ncard = 2 := by
  have hrun : (Network.ofRule pairing 20 [⟨.iri "a", .iri "p", .iri "b"⟩]).any fun e =>
      e.1.stats.mintedBlanks == 1 && e.1.skolem.blanks.length == 2 := by decide +kernel
  obtain ⟨⟨net, result⟩, hcalls, hfound⟩ := (Option.any_eq_true ..).mp hrun
  simp only [Bool.and_eq_true, beq_iff_eq] at hfound
  obtain ⟨ledger, hhistory, -⟩ := History.of_ofRule hcalls
  obtain ⟨_, log, replayed, hcourse, _⟩ := hhistory.course
  obtain ⟨firings, hfired⟩ := hcourse.exists_fired
  have hblanks := ncard_eq_length hfired.course.tabled.orderly.nodup_blanks
    fun _ => hfired.mem_blanks_iff
  exact ⟨net, ledger, _, firings, hhistory, hfired, hfound.1, hblanks.trans hfound.2⟩

/-- One for each fact of the chain, after it was fed twice. -/
theorem History.mintedBlanks_exact_of_continuation : ∃ net ledger s firings,
    History ∅ {} net ledger ∧ Fired ∅ {} net s firings ∧
    net.stats.mintedBlanks = 2 ∧ (Firing.minted firings).ncard = 2 := by
  have hrun : (Network.ofRule continuation 20 (chain ++ chain)).any fun e =>
      e.1.stats.mintedBlanks == 2 &&
        e.1.productions.all fun p => p.rule.existentials.length ≤ 1 := by decide +kernel
  obtain ⟨⟨net, result⟩, hcalls, hfound⟩ := (Option.any_eq_true ..).mp hrun
  simp only [Bool.and_eq_true, beq_iff_eq, List.all_eq_true, decide_eq_true_eq] at hfound
  obtain ⟨ledger, hhistory, -⟩ := History.of_ofRule hcalls
  obtain ⟨⟨s, firings, -, hfired⟩, hexact⟩ := hhistory.mintedBlanks_exact
  obtain ⟨-, -, hiff⟩ := hexact s firings hfired
  refine ⟨net, ledger, s, firings, hhistory, hfired, hfound.1, ?_⟩
  rw [← hfound.1, eq_comm, hiff]
  intro f _ rule hrule
  obtain ⟨p, hp, rfl⟩ := Option.map_eq_some_iff.mp hrule
  exact hfound.2 p (List.mem_of_getElem? hp)

end HornReasoner
