import HornReasoner.Proofs.Network.Minting
import Mathlib.Order.Bounds.Basic

/-! Minted blank nodes are new.

The label search gives the first free number (`SkolemTable.isLeast_nextFree`). `Fired` goes with
the course of calls and keeps the firings since the last reset, each with the facts of its moment.
The table tells what the firings were given, and nothing else (`Chronicled`): so firings of one
production on the same facts get the same blank nodes, and all others get blank nodes that occur
nowhere. -/
namespace HornReasoner

namespace SkolemTable

/-! ### The label search -/

variable {stem : String} {used : List Term}

/-- Whatever is passed over is in use. -/
theorem mem_of_lt_nextFree {tries counter n : Nat} (hcounter : counter < n)
    (hn : n < nextFree stem used tries counter) : blank stem n ∈ used := by
  induction tries generalizing counter with
  | zero =>
    rw [nextFree] at hn
    omega
  | succ tries ih =>
    rw [nextFree] at hn
    split at hn
    · rename_i htaken
      rcases Nat.lt_or_ge (counter + 1) n with hlt | hge
      · exact ih hlt hn
      · obtain rfl : n = counter + 1 := by omega
        exact List.contains_iff_mem.mp htaken
    · omega

/-- A number in use is given only after all tries. -/
theorem nextFree_of_mem {tries counter : Nat}
    (h : blank stem (nextFree stem used tries counter) ∈ used) :
    nextFree stem used tries counter = counter + tries + 1 := by
  induction tries generalizing counter with
  | zero => rfl
  | succ tries ih =>
    rw [nextFree] at h ⊢
    split at h
    · rename_i htaken
      rw [if_pos htaken, ih h]
      omega
    · rename_i hfree
      exact absurd (List.contains_iff_mem.mpr h) hfree

/-- There are more numbers to try than labels in use. -/
theorem nextFree_not_mem (stem : String) (used : List Term) (counter : Nat) :
    blank stem (nextFree stem used used.length counter) ∉ used := by
  intro hmem
  have hlast := nextFree_of_mem hmem
  have hsubset : (List.range' (counter + 1) (used.length + 1)).map (blank stem) ⊆ used := by
    intro x hx
    obtain ⟨n, hn, rfl⟩ := List.mem_map.mp hx
    have hrange := List.mem_range'_1.mp hn
    rcases Nat.lt_or_ge n (nextFree stem used used.length counter) with hlt | hge
    · exact mem_of_lt_nextFree (by omega) hlt
    · obtain rfl : n = nextFree stem used used.length counter := by omega
      exact hmem
  have hnodup : ((List.range' (counter + 1) (used.length + 1)).map (blank stem)).Nodup :=
    (List.nodup_range' 1).map (blank_injective stem)
  have hlength := (List.subperm_of_subset hnodup hsubset).length_le
  rw [List.length_map, List.length_range'] at hlength
  omega

/-- **The label search ends with the first number that is free.** -/
theorem isLeast_nextFree (stem : String) (used : List Term) (counter : Nat) :
    IsLeast {n | counter < n ∧ blank stem n ∉ used} (nextFree stem used used.length counter) :=
  ⟨⟨lt_nextFree .., nextFree_not_mem stem used counter⟩, fun _ hn =>
    Nat.le_of_not_lt fun hlt => hn.2 (mem_of_lt_nextFree hn.1 hlt)⟩

theorem mint_not_mem (stem : String) (used : List Term) (counter : Nat) (vs : List Variable) :
    ∀ x ∈ (mint stem used counter vs).1.map Prod.snd, x ∉ used := by
  induction vs generalizing counter with
  | nil => exact fun _ hx => absurd hx List.not_mem_nil
  | cons v rest ih =>
    intro x hx
    rw [mint] at hx
    rcases List.mem_cons.mp hx with rfl | hx
    · exact nextFree_not_mem stem used counter
    · exact ih _ x hx

end SkolemTable

open Network

/-! ### Firings -/

/-- A firing of a production. -/
structure Firing where
  production : ProductionId
  /-- The facts that the body was matched with. -/
  support : List Triple
  /-- All facts of that moment. -/
  facts : List Triple
  /-- The blank nodes of the existential variables. -/
  values : List (Variable × Term)

namespace Firing

def blanks (f : Firing) : List Term := f.values.map Prod.snd

/-- What the table keeps for the firing. -/
def entry (f : Firing) : SkolemTable.Entry := ((f.production, Sorted.ofList f.support), f.values)

/-- The production is the same, and so is the set of facts. -/
def Alike (f g : Firing) : Prop :=
  f.production = g.production ∧ ∀ t, t ∈ f.support ↔ t ∈ g.support

theorem alike_iff {f g : Firing} : f.Alike g ↔ f.entry.1 = g.entry.1 := by
  rw [entry, entry, Prod.mk.injEq]
  refine and_congr_right fun _ => ⟨Sorted.ofList_congr, fun h t => ?_⟩
  rw [← Sorted.mem_ofList t f.support, h, Sorted.mem_ofList]

end Firing

namespace Network

def firing (net : Network) (id : ProductionId) (p : Production) (i : Instantiation) : Firing :=
  ⟨id, i.support, net.workingMemory.toList, (net.minting id p i).2⟩

/-- The firing that an activation is. -/
def firing? (net : Network) : Activation → Option Firing
  | .fire id i => (net.production? id).map fun p => net.firing id p i
  | _ => none

end Network

/-! ### The record -/

/-- The moments that calls lead through, with the firings since the last reset. -/
inductive Fired (builtins : Registry) (options : NetworkOptions) :
    Network → Stage → List Firing → Prop where
  | new {drawn : String} : Fired builtins options (.new builtins options drawn) {} []
  | move {net net' : Network} {s s' : Stage} {firings : List Firing} :
      Fired builtins options net s firings → Move net s net' s' →
      Fired builtins options net' s' firings
  | perform {net : Network} {s : Stage} {firings : List Firing} {a : Activation}
      {rest : List Activation} : Fired builtins options net s firings → net.agenda = a :: rest →
      Fired builtins options ({ net with agenda := rest }.perform a) { s with log := s.log ++ [a] }
        (firings ++ (net.firing? a).toList)
  | forget {net : Network} {s : Stage} {firings : List Firing} :
      Fired builtins options net s firings →
      Fired builtins options net.forgotten { pending := net.truths } []

variable {builtins : Registry} {options : NetworkOptions} {net net' : Network} {s : Stage}
  {firings : List Firing}

theorem Fired.course (h : Fired builtins options net s firings) :
    Course builtins options net s := by
  induction h with
  | new => exact .new
  | move _ hmove ih => exact ih.move hmove
  | perform _ hagenda ih => exact ih.perform hagenda
  | forget _ ih => exact ih.forget

/-- **Every moment has its firings.** -/
theorem Course.exists_fired (h : Course builtins options net s) :
    ∃ firings, Fired builtins options net s firings := by
  induction h with
  | new => exact ⟨[], .new⟩
  | move _ hmove ih => exact ih.imp fun _ h => h.move hmove
  | perform _ hagenda ih =>
    obtain ⟨_, h⟩ := ih
    exact ⟨_, h.perform hagenda⟩
  | forget _ ih =>
    obtain ⟨_, h⟩ := ih
    exact ⟨[], h.forget⟩

/-! ### What the table tells -/

namespace Network

/-- Firings and table tell the same, and whatever a firing was the first to get was new. -/
structure Chronicled (net : Network) (firings : List Firing) : Prop where
  /-- A firing is in the table unless it has no existential variables. -/
  kept : ∀ f ∈ firings, f.values = [] ∨ f.entry ∈ net.skolem.minted
  told : ∀ e ∈ net.skolem.minted, ∃ f ∈ firings, f.entry = e
  vars : ∀ f ∈ firings, ∃ rule, net.rule? f.production = some rule ∧
    f.values.map Prod.fst = rule.existentials
  fresh : ∀ before f, before ++ [f] <+: firings → (∃ g ∈ before, g.Alike f) ∨
    ∀ x ∈ f.blanks, (∀ t ∈ f.facts, x ∉ t.terms) ∧ ∀ g ∈ before, x ∉ g.blanks

theorem Chronicled.empty (h : net.skolem.minted = []) : net.Chronicled [] where
  kept _ hf := absurd hf List.not_mem_nil
  told e he := by
    rw [h] at he
    cases he
  vars _ hf := absurd hf List.not_mem_nil
  fresh before f hprefix := absurd (List.prefix_nil.mp hprefix) (by simp)

theorem Chronicled.entry_mem (h : net.Chronicled firings) {f : Firing} (hf : f ∈ firings)
    {value : Variable × Term} (hvalue : value ∈ f.values) : f.entry ∈ net.skolem.minted :=
  (h.kept f hf).resolve_left fun hnone => absurd (hnone ▸ hvalue) List.not_mem_nil

theorem Chronicled.of_grows (h : net.Chronicled firings) (hgrows : Grows net net')
    (hskolem : net'.skolem = net.skolem) : net'.Chronicled firings where
  kept f hf := hskolem ▸ h.kept f hf
  told e he := h.told e (hskolem ▸ he)
  vars f hf := by
    obtain ⟨rule, hrule, hvars⟩ := h.vars f hf
    exact ⟨rule, hgrows.rules _ rule hrule, hvars⟩
  fresh := h.fresh

/-- A firing without existential variables asks for nothing, one with an entry gets what the entry
says, and any other makes an entry of blank nodes that no fact has. -/
theorem firing_cases (net : Network) (id : ProductionId) (p : Production) (i : Instantiation) :
    (net.firing id p i).values = [] ∧ (net.minting id p i).1 = net.skolem ∨
    (net.firing id p i).entry ∈ net.skolem.minted ∧ (net.minting id p i).1 = net.skolem ∨
    (∀ e ∈ net.skolem.minted, e.1 ≠ (net.firing id p i).entry.1) ∧
      (net.minting id p i).1.minted = net.skolem.minted ++ [(net.firing id p i).entry] ∧
      ∀ x ∈ (net.firing id p i).blanks, ∀ t ∈ (net.firing id p i).facts, x ∉ t.terms := by
  unfold firing Firing.entry Firing.blanks minting
  split
  · exact .inl ⟨rfl, rfl⟩
  · unfold SkolemTable.resolve
    dsimp only
    cases hfound : net.skolem.minted.lookup (id, Sorted.ofList i.support) with
    | some fresh =>
      obtain ⟨before, after, hsplit, _⟩ := List.lookup_eq_some_iff.mp hfound
      refine .inr (.inl ⟨?_, rfl⟩)
      rw [hsplit]
      simp
    | none =>
      refine .inr (.inr ⟨fun e he hkey => ?_, rfl, fun x hx t ht hterm => ?_⟩)
      · have hmissing := List.lookup_eq_none_iff.mp hfound e he
        simp [hkey] at hmissing
      · exact SkolemTable.mint_not_mem _ _ _ _ x hx (List.mem_flatMap.mpr ⟨t, ht, hterm⟩)

end Network

/-- A firing is recorded with what the table keeps for it. -/
theorem Network.Chronicled.fire (h : net.Chronicled firings) (horderly : net'.skolem.Orderly)
    {fed : List Triple} (hgrounded : net'.Grounded fed) {id : ProductionId} {p : Production}
    (hp : net.production? id = some p) {i : Instantiation} (hgrows : Grows net net')
    (hskolem : net'.skolem = (net.minting id p i).1) :
    net'.Chronicled (firings ++ [net.firing id p i]) := by
  have hrule : net'.rule? id = some p.rule := hgrows.rules _ _ (rule?_of_production? hp)
  have hvars : (net.firing id p i).values.map Prod.fst = p.rule.existentials :=
    hgrounded.keys hrule ((minting_spec net id p i).2.2 net' hskolem)
  have hcases := net.firing_cases id p i
  rw [← hskolem] at hcases
  have hproduction : (net.firing id p i).production = id := rfl
  generalize net.firing id p i = f at hvars hcases hproduction
  refine ⟨fun g hg => ?_, fun e he => ?_, fun g hg => ?_, fun before g hprefix => ?_⟩
  · rcases List.mem_append.mp hg with hg | hg
    · exact (h.kept g hg).imp_right fun he => hgrows.minted.subset he
    · obtain rfl := List.mem_singleton.mp hg
      rcases hcases with ⟨hnone, _⟩ | ⟨hold, _⟩ | ⟨_, hnew, _⟩
      · exact .inl hnone
      · exact .inr (hgrows.minted.subset hold)
      · right
        rw [hnew]
        simp
  · have hentry : e ∈ net.skolem.minted ∨ e = f.entry := by
      rcases hcases with ⟨_, hsame⟩ | ⟨_, hsame⟩ | ⟨_, hnew, _⟩
      · exact .inl (hsame ▸ he)
      · exact .inl (hsame ▸ he)
      · rw [hnew, List.mem_append, List.mem_singleton] at he
        exact he
    rcases hentry with hold | rfl
    · obtain ⟨g, hg, hentry⟩ := h.told e hold
      exact ⟨g, List.mem_append_left _ hg, hentry⟩
    · exact ⟨f, List.mem_append_right _ (List.mem_singleton_self f), rfl⟩
  · rcases List.mem_append.mp hg with hg | hg
    · obtain ⟨rule, hrule, hvars⟩ := h.vars g hg
      exact ⟨rule, hgrows.rules _ rule hrule, hvars⟩
    · obtain rfl := List.mem_singleton.mp hg
      exact ⟨p.rule, hproduction ▸ hrule, hvars⟩
  · -- only the prefix that ends with the new firing is not one of before
    rcases List.prefix_concat_iff.mp hprefix with heq | hprefix
    · obtain ⟨rfl, hlast⟩ := List.append_inj' heq rfl
      obtain rfl := (List.singleton_inj.mp hlast).symm
      rcases hcases with ⟨hnone, _⟩ | ⟨hold, _⟩ | ⟨hkey, hnew, hfresh⟩
      · right
        rw [Firing.blanks, hnone]
        exact fun x hx => absurd hx List.not_mem_nil
      · obtain ⟨g, hg, hentry⟩ := h.told _ hold
        exact .inl ⟨g, hg, Firing.alike_iff.mpr (congrArg Prod.fst hentry)⟩
      · refine .inr fun x hx => ⟨hfresh x hx, fun g hg hgx => ?_⟩
        obtain ⟨⟨v, _⟩, hv, rfl⟩ := List.mem_map.mp hx
        obtain ⟨⟨w, _⟩, hw, heq⟩ := List.mem_map.mp hgx
        cases heq
        have hentry := h.entry_mem hg hw
        have hlast : f.entry ∈ net'.skolem.minted := by
          rw [hnew]
          simp
        have hsame := (horderly.eq_of_blank (hgrows.minted.subset hentry) hlast hw hv).1
        exact hkey _ hentry (congrArg Prod.fst hsame)
    · exact h.fresh before g hprefix

/-- **At every moment firings and table tell the same.** -/
theorem Fired.chronicled (h : Fired builtins options net s firings) : net.Chronicled firings := by
  induction h with
  | new => exact .empty rfl
  | move _ hmove ih => exact ih.of_grows hmove.keeps.1 hmove.keeps.2
  | @perform net s firings a rest hfired hagenda ih =>
    have hcourse := hfired.course
    have hpopped : Grows net { net with agenda := rest } := .of_same rfl rfl rfl rfl
    have hother : (∀ id i, a ≠ .fire id i) →
        ({ net with agenda := rest }.perform a).Chronicled firings := by
      intro hnot
      have hsame := perform_same { net with agenda := rest } hnot
      exact ih.of_grows (.of_same ((skeleton_perform _ a).trans (skeleton_agenda net rest))
        hsame.memory hsame.inferred hsame.skolem) hsame.skolem
    cases a with
    | fact t | left id i | right id m => simpa [firing?] using hother (by simp)
    | fire id i =>
      obtain ⟨_, hrunning⟩ := hcourse.running
      obtain ⟨rule, hrule, hsupport, hmatch⟩ := hcourse.fire_sound
        (List.mem_append_right _ (hagenda ▸ List.mem_cons_self ..))
      obtain ⟨p, hp, rfl⟩ := Option.map_eq_some_iff.mp hrule
      obtain ⟨hgrows, _, hgrounded⟩ := fire_grows (hrunning.grounded.of_same hpopped rfl rfl rfl)
        hrule hsupport hmatch
      have hready : ({ net with agenda := rest } : Network).production? id = some p := hp
      rw [firing?, hp, Option.map_some, Option.toList_some]
      exact ih.fire (hcourse.perform hagenda).tabled.orderly hgrounded hp (hpopped.trans hgrows)
        (skolem_fire hready i)
  | forget _ => exact .empty rfl

/-- **Minted blank nodes are new.** Among the firings since the last reset, the first of a
production on a set of facts gets blank nodes that occur in no fact of that moment and in no
earlier firing, one for each existential variable; later ones of that production on that set get
the same. Firings that differ in the production or in the set share none. And whatever labels are
in use, the label search ends: with the first number behind the counter that is free. -/
theorem Fired.blanks_new (h : Fired builtins options net s firings) :
    (∀ before f, before ++ [f] <+: firings → (∃ g ∈ before, g.Alike f) ∨
      ∀ x ∈ f.blanks, (∀ t ∈ f.facts, x ∉ t.terms) ∧ ∀ g ∈ before, x ∉ g.blanks) ∧
    (∀ f ∈ firings, f.blanks.Nodup ∧ (∀ x ∈ f.blanks, net.skolem.Mintable x) ∧
      ∃ p, net.production? f.production = some p ∧ f.values.map Prod.fst = p.rule.existentials) ∧
    (∀ f ∈ firings, ∀ g ∈ firings,
      (f.Alike g → f.values = g.values) ∧ (¬f.Alike g → f.blanks.Disjoint g.blanks)) ∧
    ∀ used counter, IsLeast {n | counter < n ∧ SkolemTable.blank net.skolem.stem n ∉ used}
      (SkolemTable.nextFree net.skolem.stem used used.length counter) := by
  have hchronicled := h.chronicled
  have horderly := h.course.tabled.orderly
  refine ⟨hchronicled.fresh, fun f hf => ?_, fun f hf g hg => ⟨fun halike => ?_, fun hnot => ?_⟩,
    SkolemTable.isLeast_nextFree _⟩
  · obtain ⟨rule, hrule, hvars⟩ := hchronicled.vars f hf
    obtain ⟨p, hp, rfl⟩ := Option.map_eq_some_iff.mp hrule
    have hentry : f.blanks = [] ∨ f.entry ∈ net.skolem.minted :=
      (hchronicled.kept f hf).imp_left fun hnone => by rw [Firing.blanks, hnone, List.map_nil]
    refine ⟨?_, fun x hx => ?_, p, hp, hvars⟩
    · rcases hentry with hnone | hentry
      · rw [hnone]
        exact .nil
      · exact (List.nodup_flatMap.mp horderly.nodup_blanks).1 _ hentry
    · rcases hentry with hnone | hentry
      · rw [hnone] at hx
        cases hx
      · exact horderly.mintable (List.mem_flatMap.mpr ⟨_, hentry, hx⟩)
  · obtain ⟨rule, hrule, hvars⟩ := hchronicled.vars f hf
    obtain ⟨other, hother, hvars'⟩ := hchronicled.vars g hg
    rw [halike.1, hother] at hrule
    cases hrule
    have hboth : f.values.map Prod.fst = g.values.map Prod.fst := hvars.trans hvars'.symm
    rcases hchronicled.kept f hf with hnone | hentry
    · rw [hnone, List.map_nil, eq_comm, List.map_eq_nil_iff] at hboth
      rw [hnone, hboth]
    · rcases hchronicled.kept g hg with hnone | hentry'
      · rw [hnone, List.map_nil, List.map_eq_nil_iff] at hboth
        rw [hnone, hboth]
      · exact congrArg Prod.snd (horderly.eq_of_key hentry hentry' (Firing.alike_iff.mp halike))
  · intro x hx hx'
    obtain ⟨⟨v, _⟩, hv, rfl⟩ := List.mem_map.mp hx
    obtain ⟨⟨w, _⟩, hw, heq⟩ := List.mem_map.mp hx'
    cases heq
    have hsame := (horderly.eq_of_blank (hchronicled.entry_mem hf hv) (hchronicled.entry_mem hg hw)
      hv hw).1
    exact hnot (Firing.alike_iff.mpr (congrArg Prod.fst hsame))

/-- A fact has the first label already. -/
theorem Fired.blanks_new_of_taken : ∃ net s firings, Fired ∅ {} net s firings ∧
    ∃ f ∈ firings, ∃ g ∈ firings,
      f.entry = ((⟨0⟩, [⟨.blank "sk_1", .iri "p", .iri "b"⟩]), [(⟨"z"⟩, .blank "sk_2")]) ∧
      g.entry = ((⟨0⟩, [⟨.iri "b", .iri "p", .iri "c"⟩]), [(⟨"z"⟩, .blank "sk_3")]) ∧
      ¬f.Alike g ∧ f.blanks.Disjoint g.blanks := by
  have hrun : (Network.ofRule continuation 20
      [⟨.blank "sk_1", .iri "p", .iri "b"⟩, ⟨.iri "b", .iri "p", .iri "c"⟩]).map
        (fun e => e.1.skolem.minted) =
      some [((⟨0⟩, [⟨.blank "sk_1", .iri "p", .iri "b"⟩]), [(⟨"z"⟩, .blank "sk_2")]),
        ((⟨0⟩, [⟨.iri "b", .iri "p", .iri "c"⟩]), [(⟨"z"⟩, .blank "sk_3")])] := by decide +kernel
  obtain ⟨⟨net, result⟩, hcalls, hminted⟩ := Option.map_eq_some_iff.mp hrun
  dsimp only at hminted
  obtain ⟨ledger, hhistory, _, _⟩ := History.of_ofRule hcalls
  obtain ⟨_, log, replayed, hcourse, _⟩ := hhistory.course
  obtain ⟨firings, h⟩ := hcourse.exists_fired
  obtain ⟨f, hf, hfirst⟩ := h.chronicled.told _ (hminted ▸ List.mem_cons_self ..)
  obtain ⟨g, hg, hsecond⟩ :=
    h.chronicled.told _ (hminted ▸ List.mem_cons_of_mem _ (List.mem_cons_self ..))
  have hnot : ¬f.Alike g := by
    rw [Firing.alike_iff, hfirst, hsecond]
    decide
  exact ⟨net, _, firings, h, f, hf, g, hg, hfirst, hsecond, hnot,
    (h.blanks_new.2.2.1 f hf g hg).2 hnot⟩

end HornReasoner
