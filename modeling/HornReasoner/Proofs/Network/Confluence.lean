import HornReasoner.Proofs.Network.Closure
import HornReasoner.Proofs.Network.Minting
import HornReasoner.Proofs.Rule.Renaming
import Mathlib.Data.Set.Function

/-! Confluence up to renaming.

Two runs over the same rules and facts mint their blank nodes in different orders. What they
mint corresponds nevertheless: blank nodes correspond if the same production got them for the
same variable, on sets of facts that correspond (`Corresponds`). The relation is one to one
(`Corresponds.unique`), and it takes all facts of one run to facts of the other
(`Parallel.carries`): what is concluded from facts that correspond corresponds again. -/
namespace HornReasoner

open Network

namespace HornRule

theorem Built.nodup_existentials {rule : HornRule} (h : rule.Built) : rule.existentials.Nodup := by
  rw [h.existentials]
  exact nodup_eraseDups _

end HornRule

/-! ### Corresponding terms -/

/-- The terms stand for the same in two runs with these tables. -/
inductive Corresponds (s s' : SkolemTable) : Term → Term → Prop where
  | same {x : Term} : ¬s.Mintable x → ¬s'.Mintable x → Corresponds s s' x x
  /-- `f` and `g` translate the facts of either key. -/
  | minted {id : ProductionId} {key key' : List Triple} {fresh fresh' : List (Variable × Term)}
      {v : Variable} {x x' : Term} (f g : Term → Term) :
      ((id, key), fresh) ∈ s.minted → ((id, key'), fresh') ∈ s'.minted →
      SortedMap.lookup v fresh = some x → SortedMap.lookup v fresh' = some x' →
      (∀ t ∈ key, t.map f ∈ key') → (∀ t ∈ key, ∀ y ∈ t.terms, Corresponds s s' y (f y)) →
      (∀ t ∈ key', t.map g ∈ key) → (∀ t ∈ key', ∀ y ∈ t.terms, Corresponds s s' (g y) y) →
      Corresponds s s' x x'

namespace Corresponds

variable {s s' : SkolemTable} {x y z : Term}

theorem symm (h : Corresponds s s' x y) : Corresponds s' s y x := by
  induction h with
  | same h h' => exact .same h' h
  | minted f g he he' hx hx' hf _ hg _ ihf ihg => exact .minted g f he' he hx' hx hg ihg hf ihf

theorem alike (hs : s.Orderly) (hs' : s'.Orderly) (h : Corresponds s s' x y) : x.Alike y := by
  cases h with
  | same _ _ => exact .inl rfl
  | minted f g he he' hx hx' _ _ _ _ =>
    exact .inr ⟨(hs.mintable (SkolemTable.mem_blanks_of_lookup he hx)).isBlank,
      (hs'.mintable (SkolemTable.mem_blanks_of_lookup he' hx')).isBlank⟩

/-- **A term corresponds to one term only.** -/
theorem unique (hs : s.Orderly) (hs' : s'.Orderly) (h : Corresponds s s' x y)
    (hz : Corresponds s s' x z) : y = z := by
  induction h generalizing z with
  | same hnot _ =>
    cases hz with
    | same _ _ => rfl
    | minted _ _ he _ hx => exact absurd (hs.mintable (SkolemTable.mem_blanks_of_lookup he hx)) hnot
  | @minted id key key' fresh fresh' v x y f g he he' hx hy hf hcf hg hcg ihf ihg =>
    cases hz with
    | same hnot _ => exact absurd (hs.mintable (SkolemTable.mem_blanks_of_lookup he hx)) hnot
    | @minted _ _ other _ values _ _ z f₂ g₂ he₂ hother hx₂ hz hf₂ hcf₂ hg₂ hcg₂ =>
      -- the blank node tells its entry, so both keys translate the same facts
      obtain ⟨heq, rfl⟩ :=
        hs.eq_of_blank he he₂ (SortedMap.mem_of_lookup hx) (SortedMap.mem_of_lookup hx₂)
      cases heq
      have hsub : ∀ t ∈ key', t ∈ other := by
        intro t ht
        have hback : (t.map g).map f₂ = t := Triple.map_eq_self fun w hw =>
          (ihg t ht w hw (hcf₂ _ (hg t ht) (g w) (Triple.mem_terms_map.mpr ⟨w, hw, rfl⟩))).symm
        exact hback ▸ hf₂ _ (hg t ht)
      have hsup : ∀ t ∈ other, t ∈ key' := by
        intro t ht
        have hback : (t.map g₂).map f = t := Triple.map_eq_self fun w hw =>
          ihf _ (hg₂ t ht) (g₂ w) (Triple.mem_terms_map.mpr ⟨w, hw, rfl⟩) (hcg₂ t ht w hw)
        exact hback ▸ hf _ (hg₂ t ht)
      have hkey : key' = other := hs'.facts_eq he' hother fun t => ⟨hsub t, hsup t⟩
      subst hkey
      cases hs'.eq_of_key he' hother rfl
      exact Option.some.inj (hy.symm.trans hz)

end Corresponds

open Classical in
/-- The term that corresponds to a term of `net` in `net'`, if any. -/
noncomputable def Network.toward (net net' : Network) (x : Term) : Term :=
  if h : ∃ y, Corresponds net.skolem net'.skolem x y then h.choose else x

namespace Network

variable {net net' : Network} {facts : Set Triple}

/-- The facts are the same up to a renaming of the blank nodes that were minted. -/
def Isomorphic (net net' : Network) : Prop :=
  ∃ f : Term → Term, Set.BijOn f {x | x ∈ net.skolem.blanks} {x | x ∈ net'.skolem.blanks} ∧
    (∀ x, x ∉ net.skolem.blanks → f x = x) ∧
    Set.BijOn (Triple.map f) {t | t ∈ net.workingMemory.toList}
      {t | t ∈ net'.workingMemory.toList}

/-- Two networks rest on the same rules and facts, and no fact has a term that one of them may
mint. -/
structure Parallel (facts : Set Triple) (net net' : Network) : Prop where
  registry : net'.builtins = net.builtins
  rules : ∀ id, net'.rule? id = net.rule? id
  built : ∀ id rule, net.rule? id = some rule → rule.Built
  impartial : net.builtins.Impartial
  tabled : net.Tabled
  tabled' : net'.Tabled
  resting : ∃ fed, (∀ t, t ∈ fed ↔ t ∈ facts) ∧ net.Resting fed []
  resting' : ∃ fed, (∀ t, t ∈ fed ↔ t ∈ facts) ∧ net'.Resting fed []
  plain : ∀ t ∈ facts, ∀ x ∈ t.terms, ¬net.skolem.Mintable x ∧ ¬net'.skolem.Mintable x

/-- The fact corresponds to one of `net'`. -/
def Carries (net net' : Network) (t : Triple) : Prop :=
  t.map (net.toward net') ∈ net'.workingMemory.toList ∧
    ∀ x ∈ t.terms, Corresponds net.skolem net'.skolem x (net.toward net' x)

namespace Parallel

variable {rule : HornRule} {support : List Triple} {b : Binding} {x y : Term}

theorem symm (h : Parallel facts net net') : Parallel facts net' net where
  registry := h.registry.symm
  rules id := (h.rules id).symm
  built id rule hrule := h.built id rule ((h.rules id).symm.trans hrule)
  impartial := h.registry ▸ h.impartial
  tabled := h.tabled'
  tabled' := h.tabled
  resting := h.resting'
  resting' := h.resting
  plain t ht x hx := (h.plain t ht x hx).symm

theorem toward_eq (h : Parallel facts net net') (hxy : Corresponds net.skolem net'.skolem x y) :
    net.toward net' x = y := by
  have hexists : ∃ y, Corresponds net.skolem net'.skolem x y := ⟨y, hxy⟩
  rw [toward, dif_pos hexists]
  exact hexists.choose_spec.unique h.tabled.orderly h.tabled'.orderly hxy

theorem corresponds_toward (h : Parallel facts net net')
    (hxy : Corresponds net.skolem net'.skolem x y) :
    Corresponds net.skolem net'.skolem x (net.toward net' x) := by
  rw [h.toward_eq hxy]
  exact hxy

/-- There and back. -/
theorem toward_toward (h : Parallel facts net net')
    (hx : Corresponds net.skolem net'.skolem x (net.toward net' x)) :
    net'.toward net (net.toward net' x) = x := h.symm.toward_eq hx.symm

theorem map_toward_toward (h : Parallel facts net net') {t : Triple} (ht : net.Carries net' t) :
    (t.map (net.toward net')).map (net'.toward net) = t :=
  Triple.map_eq_self fun x hx => h.toward_toward (ht.2 x hx)

theorem corresponds_of_not_blank (hx : x.isBlank = false) :
    Corresponds net.skolem net'.skolem x x := by
  have hnot : ∀ s : SkolemTable, ¬s.Mintable x := fun s hs => by
    rw [hs.isBlank] at hx
    cases hx
  exact .same (hnot _) (hnot _)

/-! ### Matches -/

/-- A match in facts that correspond is one in the other network. -/
theorem matches_of_carries (h : Parallel facts net net') {id : ProductionId}
    (hrule : net.rule? id = some rule) (hsupport : ∀ t ∈ support, net.Carries net' t)
    (hmatch : Matches net.builtins rule.body support b) :
    Matches net'.builtins rule.body (support.map (Triple.map (net.toward net')))
      (b.rename (net.toward net')) := by
  have hconstant : ∀ atom ∈ rule.body, ∀ x ∈ atom.terms,
      Corresponds net.skolem net'.skolem x x := fun atom hatom x hx =>
    corresponds_of_not_blank ((h.built id rule hrule).isBlank_eq_false
      (List.mem_append_left _ hatom) hx)
  rw [h.registry]
  refine hmatch.rename (Binding.get?_rename _ b)
    (fun atom hatom x hx _ => h.toward_eq (hconstant atom hatom x hx)) fun u hu hholds => ?_
  have hcorresponds : ∀ x ∈ u.terms, Corresponds net.skolem net'.skolem x (net.toward net' x) := by
    intro x hx
    rcases hu x hx with ⟨atom, hatom, hx, _⟩ | ⟨v, hv⟩
    · exact h.corresponds_toward (hconstant atom hatom x hx)
    · obtain ⟨t, ht, hx⟩ := hmatch.value_mem hv
      exact (hsupport t ht).2 x hx
  rw [h.impartial.holds_map (fun x hx => (hcorresponds x hx).alike h.tabled.orderly h.tabled'.orderly)
    fun x hx y hy heq => ?_, hholds]
  rw [← h.toward_toward (hcorresponds x hx), heq, h.toward_toward (hcorresponds y hy)]

/-- Entries for corresponding matches have corresponding blank nodes. -/
theorem corresponds_of_entries (h : Parallel facts net net') {id : ProductionId}
    (hsupport : ∀ t ∈ support, net.Carries net' t) {fresh fresh' : List (Variable × Term)}
    (he : ((id, Sorted.ofList support), fresh) ∈ net.skolem.minted)
    (he' : ((id, Sorted.ofList (support.map (Triple.map (net.toward net')))), fresh') ∈
      net'.skolem.minted)
    {v : Variable} (hx : SortedMap.lookup v fresh = some x)
    (hy : SortedMap.lookup v fresh' = some y) : Corresponds net.skolem net'.skolem x y := by
  refine .minted (net.toward net') (net'.toward net) he he' hx hy (fun t ht => ?_)
    (fun t ht => ?_) (fun t ht => ?_) fun t ht => ?_
  all_goals rw [Sorted.mem_ofList] at ht
  · exact (Sorted.mem_ofList ..).mpr (List.mem_map_of_mem ht)
  · exact (hsupport t ht).2
  · obtain ⟨u, hu, rfl⟩ := List.mem_map.mp ht
    rw [h.map_toward_toward (hsupport u hu)]
    exact (Sorted.mem_ofList ..).mpr hu
  · obtain ⟨u, hu, rfl⟩ := List.mem_map.mp ht
    intro z hz
    obtain ⟨w, hw, rfl⟩ := Triple.mem_terms_map.mp hz
    rw [h.toward_toward ((hsupport u hu).2 w hw)]
    exact (hsupport u hu).2 w hw

/-- The values that the two networks have for the existential variables of corresponding matches
correspond, and the other network has the conclusions. -/
theorem exists_fresh (h : Parallel facts net net') {id : ProductionId}
    (hrule : net.rule? id = some rule) (hsupport : ∀ t ∈ support, net.Carries net' t)
    (hmatch : Matches net.builtins rule.body support b) {fresh : List (Variable × Term)}
    (hfresh : net.witnesses id rule support = some fresh) :
    ∃ fresh', (∀ v, SortedMap.lookup v fresh' = (SortedMap.lookup v fresh).map (net.toward net')) ∧
      (∀ v x, SortedMap.lookup v fresh = some x → x ∈ net.skolem.blanks ∧
        net.toward net' x ∈ net'.skolem.blanks ∧
        Corresponds net.skolem net'.skolem x (net.toward net' x)) ∧
      ∀ atom ∈ rule.head, ∀ t, atom.substitute
        ((b.rename (net.toward net')).insertAllIfNew fresh') = .ok t →
        t ∈ net'.workingMemory.toList := by
  have hrule' := (h.rules id).trans hrule
  obtain ⟨fed, _, hresting⟩ := h.resting
  obtain ⟨fed', _, hresting'⟩ := h.resting'
  obtain ⟨_, _, hrunning⟩ := hresting.running
  obtain ⟨_, _, hrunning'⟩ := hresting'.running
  have hcarried : ∀ t ∈ support.map (Triple.map (net.toward net')),
      t ∈ net'.workingMemory.toList := fun t ht => by
    obtain ⟨u, hu, rfl⟩ := List.mem_map.mp ht
    exact (hsupport u hu).1
  obtain ⟨fresh', hfresh', hall⟩ :=
    hresting'.held_of_matches hrule' hcarried (h.matches_of_carries hrule hsupport hmatch)
  have hkeys := hrunning.grounded.keys hrule hfresh
  have hkeys' := hrunning'.grounded.keys hrule' hfresh'
  refine ⟨fresh', ?_⟩
  by_cases hnone : rule.existentials = []
  · rw [hnone, List.map_eq_nil_iff] at hkeys hkeys'
    subst hkeys hkeys'
    exact ⟨fun _ => rfl, fun v x hx => (by cases hx), hall⟩
  · have he := mem_minted_of_witnesses hnone hfresh
    have he' := mem_minted_of_witnesses hnone hfresh'
    have hlookup := SortedMap.lookup_eq_map (hkeys'.trans hkeys.symm) (f := net.toward net')
      fun v x y hx hy => (h.toward_eq (h.corresponds_of_entries hsupport he he' hx hy)).symm
    refine ⟨hlookup, fun v x hx => ?_, hall⟩
    have hy : SortedMap.lookup v fresh' = some (net.toward net' x) := by
      rw [hlookup v, hx]
      rfl
    exact ⟨SkolemTable.mem_blanks_of_lookup he hx, SkolemTable.mem_blanks_of_lookup he' hy,
      h.corresponds_of_entries hsupport he he' hx hy⟩

/-! ### Facts -/

/-- What is concluded from facts that correspond corresponds. -/
theorem carries_of_concludes (h : Parallel facts net net') {before : List Triple} {t : Triple}
    (hbefore : ∀ u ∈ before, net.Carries net' u) (ht : net.Concludes before t) :
    net.Carries net' t := by
  obtain ⟨id, rule, i, fresh, hrule, hsupport, hmatch, hfresh, atom, hatom, ht⟩ := ht
  have hcarried := fun u hu => hbefore u (hsupport u hu)
  obtain ⟨fresh', hlookup, hcorresponds, hall⟩ := h.exists_fresh hrule hcarried hmatch hfresh
  have hconstant : ∀ x ∈ atom.terms, Corresponds net.skolem net'.skolem x x := fun x hx =>
    corresponds_of_not_blank ((h.built id rule hrule).isBlank_eq_false
      (List.mem_append_right _ hatom) hx)
  refine ⟨hall atom hatom _ (Triple.substitute_rename (fun v => ?_)
    (fun x hx _ => h.toward_eq (hconstant x hx)) ht), fun x hx => ?_⟩
  · rw [SortedMap.get?_insertAllIfNew, SortedMap.get?_insertAllIfNew, Binding.get?_rename, hlookup]
    cases i.binding.get? v <;> rfl
  · rcases Triple.term_of_substitute ht hx with ⟨hx, _⟩ | ⟨v, hv⟩
    · exact h.corresponds_toward (hconstant x hx)
    · rw [SortedMap.get?_insertAllIfNew, Option.or_eq_some_iff] at hv
      rcases hv with hv | ⟨_, hv⟩
      · obtain ⟨u, hu, hx⟩ := hmatch.value_mem hv
        exact (hcarried u hu).2 x hx
      · exact (hcorresponds v x hv).2.2

/-- **Every fact of one network corresponds to one of the other.** -/
theorem carries (h : Parallel facts net net') :
    ∀ t ∈ net.workingMemory.toList, net.Carries net' t := by
  obtain ⟨fed, hfed, hresting⟩ := h.resting
  obtain ⟨fed', hfed', hresting'⟩ := h.resting'
  obtain ⟨_, _, hrunning⟩ := hresting.running
  obtain ⟨_, _, hrunning'⟩ := hresting'.running
  refine hrunning.grounded.induction (fun t ht => ?_) fun before t => h.carries_of_concludes
  have hfact := (hfed t).mp ht
  have hsame : ∀ x ∈ t.terms, Corresponds net.skolem net'.skolem x x := fun x hx =>
    .same (h.plain t hfact x hx).1 (h.plain t hfact x hx).2
  refine ⟨?_, fun x hx => h.corresponds_toward (hsame x hx)⟩
  rw [Triple.map_eq_self fun x hx => h.toward_eq (hsame x hx)]
  exact hrunning'.grounded.kept t ((hfed' t).mpr hfact)

/-- Every blank node that one network minted corresponds to one that the other minted. -/
theorem blanks (h : Parallel facts net net') {x : Term} (hx : x ∈ net.skolem.blanks) :
    net.toward net' x ∈ net'.skolem.blanks ∧
      Corresponds net.skolem net'.skolem x (net.toward net' x) := by
  obtain ⟨e, he, hx⟩ := List.mem_flatMap.mp hx
  obtain ⟨⟨v, _⟩, hv, rfl⟩ := List.mem_map.mp hx
  obtain ⟨rule, support, b, hrule, hsupport, hmatch, hkey, hvars⟩ := h.tabled.matched e he
  have hexistentials : rule.existentials ≠ [] := by
    rw [← hvars]
    exact List.ne_nil_of_mem (List.mem_map_of_mem hv)
  have hfresh : net.witnesses e.1.1 rule support = some e.2 := by
    refine witnesses_eq_some_iff.mpr (.inr ⟨hexistentials, ?_⟩)
    rw [← hkey]
    exact h.tabled.orderly.lookup_eq he
  obtain ⟨_, _, hcorresponds, _⟩ :=
    h.exists_fresh hrule (fun t ht => h.carries t (hsupport t ht)) hmatch hfresh
  have hnodup : (e.2.map Prod.fst).Nodup := by
    rw [hvars]
    exact (h.built _ rule hrule).nodup_existentials
  exact (hcorresponds v _ (SortedMap.lookup_of_mem hnodup hv)).2

/-- What the network did not mint stays as it is. -/
theorem toward_of_not_minted {x : Term} (hx : x ∉ net.skolem.blanks) : net.toward net' x = x := by
  unfold toward
  split
  · rename_i hexists
    have hchosen := hexists.choose_spec
    generalize hexists.choose = y at hchosen
    cases hchosen with
    | same _ _ => rfl
    | minted _ _ he _ hlookup => exact absurd (SkolemTable.mem_blanks_of_lookup he hlookup) hx
  · rfl

/-- **The facts of two networks with the same rules and facts are the same up to a renaming of
the blank nodes they minted.** -/
theorem isomorphic (h : Parallel facts net net') : net.Isomorphic net' := by
  refine ⟨net.toward net', ?_, fun x hx => toward_of_not_minted hx, ?_⟩
  · have hinverse : Set.InvOn (net'.toward net) (net.toward net') {x | x ∈ net.skolem.blanks}
        {x | x ∈ net'.skolem.blanks} :=
      ⟨fun x hx => h.toward_toward (h.blanks hx).2,
        fun x hx => h.symm.toward_toward (h.symm.blanks hx).2⟩
    exact hinverse.bijOn (fun x hx => (h.blanks hx).1) fun x hx => (h.symm.blanks hx).1
  · have hinverse : Set.InvOn (Triple.map (net'.toward net)) (Triple.map (net.toward net'))
        {t | t ∈ net.workingMemory.toList} {t | t ∈ net'.workingMemory.toList} :=
      ⟨fun t ht => h.map_toward_toward (h.carries t ht),
        fun t ht => h.symm.map_toward_toward (h.symm.carries t ht)⟩
    exact hinverse.bijOn (fun t ht => (h.carries t ht).1) fun t ht => (h.symm.carries t ht).1

end Parallel

/-! ### Rules and batches -/

/-- Feeds a batch, whatever it answers. -/
def feedAll (budget : Nat) (net : Network) (facts : List Triple) : Option Network :=
  (net.feed budget facts fun _ => false).map Prod.fst

/-- Adds rules to a new network and feeds facts batch by batch. -/
def ofBatches (builtins : Registry) (options : NetworkOptions) (budget : Nat)
    (rules : List HornRule) (batches : List (List Triple)) (drawn : String := "sk") :
    Option Network :=
  ((Network.new builtins options drawn).addRules budget rules).bind fun e =>
    batches.foldlM (feedAll budget) e.1

theorem stem_of_skeleton_eq (h : net'.skeleton = net.skeleton) :
    net'.skolem.stem = net.skolem.stem :=
  show net'.skeleton.skolem.stem = net.skeleton.skolem.stem by rw [h]

end Network

variable {builtins : Registry} {options options' : NetworkOptions} {drawn drawn' : String}
  {net net' : Network} {rules : List HornRule} {batches batches' : List (List Triple)}
  {budget budget' : Nat}

theorem History.feedAll {ledger : Ledger} (h : History builtins options net ledger)
    (hground : ∀ t ∈ batches.flatten, t.hasVariables = false)
    (hf : batches.foldlM (Network.feedAll budget) net = some net') :
    net'.skeleton = net.skeleton ∧ ∃ after, History builtins options net' after ∧
      after.rules = ledger.rules ∧ after.facts = ledger.facts ++ batches.flatten := by
  induction batches generalizing net ledger with
  | nil =>
    cases hf
    exact ⟨rfl, ledger, h, rfl, (List.append_nil _).symm⟩
  | cons batch rest ih =>
    rw [List.flatten_cons, List.forall_mem_append] at hground
    rw [List.foldlM_cons] at hf
    obtain ⟨next, hnext, hrest⟩ := Option.bind_eq_some_iff.mp hf
    obtain ⟨⟨_, result⟩, hfeed, rfl⟩ := Option.map_eq_some_iff.mp hnext
    obtain ⟨report, rfl, -⟩ := (feed_eq_some_iff hground.1).mp hfeed
    obtain ⟨hskeleton, after, hafter, hrules, hfacts⟩ := ih (h.feed hfeed) hground.2 hrest
    exact ⟨hskeleton.trans (h.keeps.resting.feed hfeed).1, after, hafter, hrules,
      hfacts.trans (List.append_assoc ..)⟩

/-- The rules come from the list, and which of them are kept does not depend on the budget or the
options. -/
theorem History.of_ofBatches (hground : ∀ t ∈ batches.flatten, t.hasVariables = false)
    (h : Network.ofBatches builtins options budget rules batches drawn = some net) :
    (∀ id, net.rule? id = (rules.foldl Rulebook.add ⟨builtins, [], []⟩).rules[id.index]?) ∧
    net.skolem.stem = (Network.new builtins options drawn).skolem.stem ∧
    ∃ ledger, History builtins options net ledger ∧ ledger.rules ⊆ rules ∧
      ledger.facts = batches.flatten := by
  obtain ⟨⟨start, report⟩, hcall, hf⟩ := Option.bind_eq_some_iff.mp h
  have hnew := resting_new builtins options drawn
  obtain ⟨hc, hactivate⟩ := addRules_spec hnew.wired hcall
  obtain ⟨hskeleton, _⟩ := hnew.activate hc hactivate
  obtain ⟨hskeleton', ledger, hhistory, hrules, hfacts⟩ :=
    (History.new.addRules hcall).feedAll hground hf
  refine ⟨fun id => ?_, ?_, ledger, hhistory, hrules ▸ keptRules_subset _ rules, hfacts⟩
  · rw [rule?_of_skeleton_eq (hskeleton'.trans hskeleton), rule?_eq_rulebook,
      rulebook_compileAll hnew.wired]
    rfl
  · rw [stem_of_skeleton_eq (hskeleton'.trans hskeleton), hc.grown.skolem]

/-- **The order of feeding and the batches do not matter, up to a renaming of the blank nodes that
were minted**, as long as tests do not tell blank nodes apart and no batch is refused for a
variable. -/
theorem Network.confluent (himpartial : builtins.Impartial) (hbuilt : ∀ rule ∈ rules, rule.Built)
    (hground : ∀ t ∈ batches.flatten, t.hasVariables = false)
    (hplain : ∀ t ∈ batches.flatten, ∀ x ∈ t.terms,
      ¬(Network.new builtins options drawn).skolem.Mintable x ∧
        ¬(Network.new builtins options' drawn').skolem.Mintable x)
    (hperm : batches.flatten.Perm batches'.flatten)
    (h : Network.ofBatches builtins options budget rules batches drawn = some net)
    (h' : Network.ofBatches builtins options' budget' rules batches' drawn' = some net') :
    net.Isomorphic net' := by
  have hground' : ∀ t ∈ batches'.flatten, t.hasVariables = false := fun t ht =>
    hground t (hperm.mem_iff.mpr ht)
  obtain ⟨hrules, hstem, ledger, hhistory, hkept, hfacts⟩ := History.of_ofBatches hground h
  obtain ⟨hrules', hstem', ledger', hhistory', hkept', hfacts'⟩ :=
    History.of_ofBatches hground' h'
  obtain ⟨_, log, replayed, hcourse, _⟩ := hhistory.course
  obtain ⟨_, log', replayed', hcourse', _⟩ := hhistory'.course
  have hregistry := hcourse.constant.1
  have hparallel : Parallel {t | t ∈ batches.flatten} net net' :=
    { registry := hcourse'.constant.1.trans hregistry.symm
      rules := fun id => (hrules' id).trans (hrules id).symm
      built := fun id rule hrule => hbuilt rule (hkept (hhistory.keeps.rules id rule hrule))
      impartial := hregistry ▸ himpartial
      tabled := hcourse.tabled
      tabled' := hcourse'.tabled
      resting := ⟨_, fun t => hfacts ▸ Iff.rfl, hhistory.keeps.resting⟩
      resting' := ⟨_, fun t => hfacts' ▸ hperm.mem_iff.symm, hhistory'.keeps.resting⟩
      plain := fun t ht x hx => by
        rw [SkolemTable.Mintable, hstem, SkolemTable.Mintable, hstem']
        exact hplain t ht x hx }
  exact hparallel.isomorphic

/-- Whatever the relation `q` leads to is related by `r` to something, unless it leads from a
thing to itself. -/
def succession : HornRule :=
  .ofAtoms "succession"
    [⟨.var ⟨"x"⟩, .iri "q", .var ⟨"y"⟩⟩,
      ⟨.var ⟨"x"⟩, .iri (Vocabulary.Swap.log ++ "notEqualTo"), .var ⟨"y"⟩⟩]
    [⟨.var ⟨"y"⟩, .iri "r", .var ⟨"z"⟩⟩]

theorem Network.confluent_of_chain : ∃ net net' : Network,
    Network.ofBatches .standard {} 30 [continuation, succession] [chain] = some net ∧
    Network.ofBatches .standard { blankStem := some "new" } 30 [continuation, succession]
      (chain.reverse.map fun t => [t]) = some net' ∧
    net.skolem.blanks = [.blank "sk_1", .blank "sk_2", .blank "sk_3", .blank "sk_4"] ∧
    net'.skolem.blanks = [.blank "new_1", .blank "new_2", .blank "new_3", .blank "new_4"] ∧
    net.Isomorphic net' := by
  have hrun : (Network.ofBatches .standard {} 30 [continuation, succession] [chain]).map
      (fun net => net.skolem.blanks) =
        some [.blank "sk_1", .blank "sk_2", .blank "sk_3", .blank "sk_4"] := by decide +kernel
  have hrun' : (Network.ofBatches .standard { blankStem := some "new" } 30
      [continuation, succession] (chain.reverse.map fun t => [t])).map
      (fun net => net.skolem.blanks) =
        some [.blank "new_1", .blank "new_2", .blank "new_3", .blank "new_4"] := by decide +kernel
  obtain ⟨net, h, hblanks⟩ := Option.map_eq_some_iff.mp hrun
  obtain ⟨net', h', hblanks'⟩ := Option.map_eq_some_iff.mp hrun'
  refine ⟨net, net', h, h', hblanks, hblanks', Network.confluent Registry.standard_impartial ?_
    (by decide +kernel) ?_ (by decide +kernel) h h'⟩
  · intro rule hrule
    rcases List.mem_cons.mp hrule with rfl | hrule
    · exact ⟨_, _, _, rfl⟩
    · exact List.mem_singleton.mp hrule ▸ ⟨_, _, _, rfl⟩
  · intro t ht x hx
    have hnamed : ∀ t ∈ [chain].flatten, ∀ x ∈ t.terms, x.isBlank = false := by decide +kernel
    have hnot : ∀ s : SkolemTable, ¬s.Mintable x := fun s hs => by
      have hblank := hs.isBlank
      rw [hnamed t ht x hx] at hblank
      cases hblank
    exact ⟨hnot _, hnot _⟩

/-- What the relation `q` leads from to the blank node that is called first is marked. -/
def marking : HornRule :=
  .ofAtoms "marking"
    [⟨.var ⟨"x"⟩, .iri "q", .var ⟨"y"⟩⟩, ⟨.var ⟨"y"⟩, .iri "first", .var ⟨"y"⟩⟩]
    [⟨.var ⟨"x"⟩, .iri "r", .var ⟨"x"⟩⟩]

/-- A test that reads labels tells the order of feeding, and a batch with a variable is refused as
a whole where its facts could have been fed in batches of their own. -/
theorem Network.batches_matter :
    (∃ net net' : Network,
      Network.ofBatches (.ofList [("first", fun a _ => a = .blank "sk_1")]) {} 30
        [continuation, marking] [chain] = some net ∧
      Network.ofBatches (.ofList [("first", fun a _ => a = .blank "sk_1")]) {} 30
        [continuation, marking] [chain.reverse] = some net' ∧ ¬net.Isomorphic net') ∧
    ∃ net net' : Network,
      Network.ofBatches ∅ {} 30 [continuation]
        [chain ++ [⟨.var ⟨"x"⟩, .iri "p", .iri "c"⟩]] = some net ∧
      Network.ofBatches ∅ {} 30 [continuation]
        [chain, [⟨.var ⟨"x"⟩, .iri "p", .iri "c"⟩]] = some net' ∧ ¬net.Isomorphic net' := by
  constructor
  · have hrun : (Network.ofBatches (.ofList [("first", fun a _ => a = .blank "sk_1")]) {} 30
        [continuation, marking] [chain]).any fun net =>
          net.workingMemory.contains ⟨.iri "b", .iri "r", .iri "b"⟩ &&
            net.skolem.blanks.all Term.isBlank := by decide +kernel
    have hrun' : (Network.ofBatches (.ofList [("first", fun a _ => a = .blank "sk_1")]) {} 30
        [continuation, marking] [chain.reverse]).any fun net =>
          !net.workingMemory.contains ⟨.iri "b", .iri "r", .iri "b"⟩ := by decide +kernel
    obtain ⟨net, h, hmarked⟩ := (Option.any_eq_true ..).mp hrun
    obtain ⟨net', h', hunmarked⟩ := (Option.any_eq_true ..).mp hrun'
    rw [Bool.and_eq_true, Graph.contains_iff, List.all_eq_true] at hmarked
    refine ⟨net, net', h, h', fun ⟨f, _, hfixed, hfacts⟩ => ?_⟩
    have hsame : ∀ iri, f (.iri iri) = .iri iri := fun iri => hfixed _ fun hin => by
      cases hmarked.2 _ hin
    have hmoved := hfacts.mapsTo hmarked.1
    simp only [Triple.map, hsame] at hmoved
    rw [Graph.contains_iff.mpr hmoved] at hunmarked
    cases hunmarked
  · have hrun : (Network.ofBatches ∅ {} 30 [continuation]
        [chain ++ [⟨.var ⟨"x"⟩, .iri "p", .iri "c"⟩]]).any fun net =>
          net.workingMemory.isEmpty := by decide +kernel
    have hrun' : (Network.ofBatches ∅ {} 30 [continuation]
        [chain, [⟨.var ⟨"x"⟩, .iri "p", .iri "c"⟩]]).any fun net =>
          net.workingMemory.contains ⟨.iri "a", .iri "p", .iri "b"⟩ := by decide +kernel
    obtain ⟨net, h, hempty⟩ := (Option.any_eq_true ..).mp hrun
    obtain ⟨net', h', hfed⟩ := (Option.any_eq_true ..).mp hrun'
    refine ⟨net, net', h, h', fun ⟨f, _, _, hfacts⟩ => ?_⟩
    obtain ⟨t, ht, -⟩ := hfacts.surjOn (Graph.contains_iff.mp hfed)
    have hnone : net.workingMemory.toList = [] := List.isEmpty_iff.mp hempty
    rw [Set.mem_ofPred_eq, hnone] at ht
    cases ht

end HornReasoner
