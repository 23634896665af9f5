import HornReasoner.Proofs.Network.Course
import Mathlib.Data.Set.Card

/-! How often productions fire.

As long as nothing is replayed, a production with a terminal node has fired once for every
firing in the log, and a truth fires once, now or later (`Tallied`). Between calls the
firings in the log are the matches of the body, each one once (`Running.firesOf_perm`). -/
namespace HornReasoner

namespace Network

variable {net net' : Network} {fed : List Triple} {log started : List Activation}
  {owed : List Triple} {pending : List ProductionId}

theorem terminal?_of_skeleton_eq (h : net'.skeleton = net.skeleton) (id : ProductionId) :
    net'.terminal? id = net.terminal? id := by
  rw [← terminal?_skeleton, h, terminal?_skeleton]

theorem terminal?_of_production? {id : ProductionId} {p : Production}
    (h : net.production? id = some p) : net.terminal? id = some p.terminal :=
  congrArg (Option.map Production.terminal) h

/-! ### The firings in a log -/

/-- Whatever fires unconditionally was begun with. -/
theorem Account.firesOf_truth (h : Account net log started owed) (hw : net.Wired) {id : ProductionId}
    (hid : net.terminal? id = some none) :
    (firesOf id log).length + (firesOf id net.agenda).length = (firesOf id started).length := by
  have hset : firesOf id (net.setOff log) = [] := by
    rw [firesOf_setOff log hw.production]
    exact List.flatMap_eq_nil_iff.mpr fun terminal _ => if_neg (by simp [hid])
  have hperm := (h.balance.filterMap (Activation.fire? id)).length_eq
  rwa [← firesOf, ← firesOf, firesOf_append, firesOf_append, hset, List.append_nil,
    List.length_append] at hperm

/-- The firings of a production behind a node are what left the node. -/
theorem Account.firesOf_perm (h : Account net log started owed) (hw : net.Wired)
    (hidle : net.agenda = []) {id : ProductionId} {terminal : BetaId}
    (hid : net.terminal? id = some (some terminal)) (hterminal : terminal ∈ net.betaIds) :
    (firesOf id log).Perm (net.outputs log terminal) := by
  have hstarted : firesOf id started = [] := by
    refine List.eq_nil_iff_forall_not_mem.mpr fun i hi => ?_
    rcases h.begun _ ((mem_firesOf started).mp hi) with ⟨_, heq⟩ | ⟨_, htruth, heq⟩
    · cases heq
    · cases heq
      cases hid.symm.trans (hw.production.mem_truths.mp htruth)
  have hperm := h.balance.filterMap (Activation.fire? id)
  rwa [hidle, List.append_nil, ← firesOf, ← firesOf, firesOf_append, hstarted, List.nil_append,
    firesOf_setOff_terminal log hw hid hterminal] at hperm

/-- Without facts nothing fires that has conditions. -/
theorem Account.firesOf_eq_nil (h : Account net log started owed) (hw : net.Wired)
    (hempty : net.workingMemory.toList = []) {id : ProductionId} {terminal : BetaId}
    (hid : net.terminal? id = some (some terminal)) : firesOf id log = [] := by
  obtain ⟨_, steps, _, _, he⟩ := hw.production.planned_some hid
  obtain ⟨hsteps, hevaluable⟩ := hw.beta.evaluable _ he
  have hfacts : factsOf log = [] := List.eq_nil_iff_forall_not_mem.mpr fun t ht => by
    have hmem := h.factsOf_subset ht
    rw [hempty] at hmem
    exact List.not_mem_nil hmem
  refine List.eq_nil_iff_forall_not_mem.mpr fun i hi => ?_
  rcases h.mem_fire hw (List.mem_append_left _ ((mem_firesOf log).mp hi)) with
    ⟨htruth, _⟩ | ⟨other, hother, _, hout⟩
  · cases hid.symm.trans (hw.production.mem_truths.mp htruth)
  · cases hid.symm.trans hother
    have hinstance := outputs_subset hw.beta h.covered he hout
    rw [hfacts, instances_nil hsteps hevaluable] at hinstance
    exact List.not_mem_nil hinstance

/-- A truth that is to fire is still to fire after the next activation, unless that is the
firing. -/
theorem Running.firesOf_rest (h : Running net fed log started owed) {a : Activation}
    {rest : List Activation} (hagenda : net.agenda = a :: rest) {id : ProductionId}
    (hid : net.terminal? id = some none) :
    (firesOf id ({ net with agenda := rest }.perform a).agenda).length =
      (firesOf id rest).length := by
  have hskeleton : ({ net with agenda := rest }.perform a).skeleton = net.skeleton :=
    (skeleton_perform _ a).trans (skeleton_agenda net rest)
  obtain ⟨more, hnext, _⟩ := h.perform hagenda
  have hbefore := h.account.firesOf_truth h.wired hid
  have hafter := hnext.account.firesOf_truth hnext.wired
    ((terminal?_of_skeleton_eq hskeleton id).trans hid)
  have hmore : firesOf id (more.map Activation.fact) = [] := by
    rw [firesOf, List.filterMap_map]
    exact List.filterMap_eq_nil_iff.mpr fun _ _ => rfl
  simp only [hagenda, firesOf_append, firesOf_cons, firesOf_nil, hmore,
    List.length_append] at hbefore hafter
  omega

/-! ### What a firing counts -/

theorem assertHeads_counts (b : Binding) (j : Justification) (head : List Triple) (net : Network) :
    (head.foldl (assertHead b j) net).productions = net.productions ∧
      (head.foldl (assertHead b j) net).firings = net.firings := by
  induction head generalizing net with
  | nil => exact ⟨rfl, rfl⟩
  | cons pattern rest ih =>
    have hone : (net.assertHead b j pattern).productions = net.productions ∧
        (net.assertHead b j pattern).firings = net.firings := by
      unfold assertHead assertDerived
      split
      · split
        · split <;> exact ⟨rfl, rfl⟩
        · exact ⟨rfl, rfl⟩
      · exact ⟨rfl, rfl⟩
    obtain ⟨hproductions, hfirings⟩ := ih (net.assertHead b j pattern)
    exact ⟨hproductions.trans hone.1, hfirings.trans hone.2⟩

/-- A firing is counted, by the production and by the network. -/
theorem fire_counts {id : ProductionId} {p : Production} (hp : net.production? id = some p)
    (i : Instantiation) :
    (net.fire id i).productions = net.productions.set id.index { p with fired := p.fired + 1 } ∧
      (net.fire id i).firings = net.firings + 1 := by
  rw [fire_eq hp]
  exact assertHeads_counts ..

theorem production?_fire {id : ProductionId} {p : Production} (hp : net.production? id = some p)
    (i : Instantiation) (other : ProductionId) :
    (net.fire id i).production? other =
      if other = id then some { p with fired := p.fired + 1 } else net.production? other := by
  have hlt : id.index < net.productions.length := (List.getElem?_eq_some_iff.mp hp).1
  rw [production?, (fire_counts hp i).1, List.getElem?_set]
  by_cases heq : other = id
  · rw [if_pos heq, heq, if_pos rfl, if_pos hlt]
  · have hindex : id.index ≠ other.index := fun h => heq (by cases other; cases id; cases h; rfl)
    rw [if_neg heq, if_neg hindex]
    rfl

/-- One more firing of one production is one more firing. -/
theorem sum_fired_set {ps : List Production} {n : Nat} {p : Production} (h : ps[n]? = some p) :
    ((ps.set n { p with fired := p.fired + 1 }).map Production.fired).sum =
      (ps.map Production.fired).sum + 1 := by
  induction ps generalizing n with
  | nil => cases h
  | cons q rest ih =>
    cases n with
    | zero =>
      cases h
      simp only [List.set_cons_zero, List.map_cons, List.sum_cons]
      omega
    | succ n =>
      simp only [List.set_cons_succ, List.map_cons, List.sum_cons, ih h]
      omega

/-! ### Added productions -/

/-- A production after compiling is an old one, or it was added and has not fired. -/
theorem Compiled.old_or_added {kept : List HornRule} {added : List ProductionId}
    (hc : Compiled net net' kept added) {id : ProductionId} {p : Production}
    (hp : net'.production? id = some p) :
    (net.production? id = some p ∧ id ∉ added) ∨ (p.fired = 0 ∧ id ∈ added) := by
  obtain ⟨more, hmore, hfresh, hadded⟩ := hc.productions
  rw [production?, hmore] at hp
  rw [hadded, List.mem_map]
  by_cases hlt : id.index < net.productions.length
  · rw [List.getElem?_append_left hlt] at hp
    refine .inl ⟨hp, ?_⟩
    rintro ⟨n, hn, rfl⟩
    exact absurd (List.mem_range'_1.mp hn).1 (Nat.not_le.mpr hlt)
  · rw [List.getElem?_append_right (Nat.not_lt.mp hlt)] at hp
    refine .inr ⟨hfresh p (List.mem_of_getElem? hp), id.index, List.mem_range'_1.mpr ⟨?_, ?_⟩, rfl⟩
    · exact Nat.not_lt.mp hlt
    · have := (List.getElem?_eq_some_iff.mp hp).1
      omega

theorem Compiled.nodup_added {kept : List HornRule} {added : List ProductionId}
    (hc : Compiled net net' kept added) : added.Nodup := by
  obtain ⟨_, _, _, hadded⟩ := hc.productions
  rw [hadded]
  exact (List.nodup_range' 1).map fun a b hab => by cases hab; rfl

/-! ### The tally -/

/-- The counts of firings, for a log and the truths that are pending. -/
structure Tallied (net : Network) (log : List Activation) (pending : List ProductionId) :
    Prop where
  total : net.firings = (net.productions.map Production.fired).sum
  conditional : ∀ id p terminal, net.production? id = some p → p.terminal = some terminal →
    p.fired = (firesOf id log).length
  /-- A truth has fired, is about to, or is pending. -/
  truth : ∀ id p, net.production? id = some p → p.terminal = none →
    p.fired + (firesOf id net.agenda).length + pending.count id = 1

namespace Tallied

theorem of_same (h : net.Tallied log pending) (hproductions : net'.productions = net.productions)
    (hfirings : net'.firings = net.firings) {log' : List Activation}
    (hlog : ∀ id, firesOf id log' = firesOf id log)
    (hagenda : ∀ id, net.terminal? id = some none →
      (firesOf id net'.agenda).length = (firesOf id net.agenda).length) :
    net'.Tallied log' pending where
  total := by
    rw [hfirings, hproductions]
    exact h.total
  conditional id p terminal hp hterminal := by
    rw [production?, hproductions] at hp
    rw [hlog]
    exact h.conditional id p terminal hp hterminal
  truth id p hp hnone := by
    rw [production?, hproductions] at hp
    rw [hagenda id ((terminal?_of_production? hp).trans (congrArg some hnone))]
    exact h.truth id p hp hnone

/-- A firing is counted where it is logged. -/
theorem fire (h : net.Tallied log pending) (hr : Running net fed log started owed)
    {id : ProductionId} {i : Instantiation} {rest : List Activation}
    (hagenda : net.agenda = .fire id i :: rest) :
    ({ net with agenda := rest }.fire id i).Tallied (log ++ [Activation.fire id i]) pending := by
  obtain ⟨rule, hrule, _⟩ := hr.account.fire_sound hr.wired
    (show Activation.fire id i ∈ log ++ net.agenda by rw [hagenda]; simp)
  obtain ⟨p, hp, _⟩ := Option.map_eq_some_iff.mp hrule
  have hpopped : ({ net with agenda := rest } : Network).production? id = some p := hp
  obtain ⟨hproductions, hfirings⟩ := fire_counts hpopped i
  have hproduction := production?_fire hpopped i
  refine ⟨?_, fun other q terminal hq hsome => ?_, fun other q hq hnone => ?_⟩
  · rw [hfirings, hproductions, sum_fired_set hp]
    exact congrArg (· + 1) h.total
  · rw [hproduction] at hq
    split at hq
    · rename_i heq
      cases hq
      rw [heq, firesOf_append, List.length_append, h.conditional id p terminal hp hsome]
      simp [Activation.fire?]
    · rename_i hne
      rw [h.conditional other q terminal hq hsome]
      simp [Activation.fire?, Ne.symm hne]
  · rw [hproduction] at hq
    split at hq
    · rename_i heq
      cases hq
      have htruth := h.truth id p hp hnone
      have hrest := hr.firesOf_rest hagenda ((terminal?_of_production? hp).trans (congrArg some hnone))
      rw [perform] at hrest
      rw [hagenda, firesOf_cons, Activation.fire?, if_pos rfl, List.length_append] at htruth
      rw [heq, hrest]
      dsimp only [Option.toList_some, List.length_singleton] at htruth ⊢
      omega
    · rename_i hne
      have htruth := h.truth other q hq hnone
      have hrest := hr.firesOf_rest hagenda ((terminal?_of_production? hq).trans (congrArg some hnone))
      rw [perform] at hrest
      rw [hagenda, firesOf_cons, Activation.fire?, if_neg (Ne.symm hne)] at htruth
      rw [hrest]
      exact htruth

/-- **Every activation keeps the tally.** -/
theorem perform (h : net.Tallied log pending) (hr : Running net fed log started owed) {a : Activation}
    {rest : List Activation} (hagenda : net.agenda = a :: rest) :
    ({ net with agenda := rest }.perform a).Tallied (log ++ [a]) pending := by
  have hother : (∀ id i, a ≠ .fire id i) → (∀ id, a.fire? id = none) →
      ({ net with agenda := rest }.perform a).Tallied (log ++ [a]) pending := by
    intro hnot hnone
    have hsame := perform_same { net with agenda := rest } hnot
    refine h.of_same hsame.productions hsame.firings (fun id => ?_) fun id hid => ?_
    · simp [hnone]
    · rw [hr.firesOf_rest hagenda hid, hagenda, firesOf_cons, hnone]
      rfl
  cases a with
  | fact t | left id i | right id m => exact hother (by simp) fun _ => rfl
  | fire id i => exact h.fire hr hagenda

/-- New productions have not fired: a truth among them is pending, and for the others there is
nothing in the log. -/
theorem compiled (h : net.Tallied log []) (hidle : net.agenda = []) {kept : List HornRule}
    {added : List ProductionId} (hc : Compiled net net' kept added) {log' : List Activation}
    (hold : ∀ id terminal, net.terminal? id = some (some terminal) →
      (firesOf id log').length = (firesOf id log).length)
    (hnew : ∀ id ∈ added, ∀ terminal, net'.terminal? id = some (some terminal) →
      firesOf id log' = []) :
    net'.Tallied log' (added.filter net'.isTruth) := by
  have hidle' : net'.agenda = [] := hc.grown.agenda.trans hidle
  refine ⟨?_, fun id p terminal hp hsome => ?_, fun id p hp hnone => ?_⟩
  · obtain ⟨more, hmore, hfresh, _⟩ := hc.productions
    have hzero : (more.map Production.fired).sum = 0 := List.sum_eq_zero fun n hn => by
      obtain ⟨p, hp, rfl⟩ := List.mem_map.mp hn
      exact hfresh p hp
    rw [hc.grown.firings, hmore, List.map_append, List.sum_append, hzero]
    exact h.total
  · rcases hc.old_or_added hp with ⟨hp, _⟩ | ⟨hzero, hid⟩
    · rw [h.conditional id p terminal hp hsome]
      exact (hold id terminal ((terminal?_of_production? hp).trans (congrArg some hsome))).symm
    · rw [hzero, hnew id hid terminal ((terminal?_of_production? hp).trans (congrArg some hsome))]
      rfl
  · have htruth : net'.isTruth id = true :=
      isTruth_iff.mpr ((terminal?_of_production? hp).trans (congrArg some hnone))
    rw [hidle', firesOf_nil]
    rcases hc.old_or_added hp with ⟨hp, hid⟩ | ⟨hzero, hid⟩
    · have hone := h.truth id p hp hnone
      rw [hidle, firesOf_nil, List.count_nil] at hone
      rw [List.count_eq_zero.mpr fun hin => hid (List.mem_filter.mp hin).1]
      exact hone
    · rw [hzero, List.count_eq_one_of_mem (hc.nodup_added.filter _) (List.mem_filter.mpr ⟨hid, htruth⟩)]
      rfl

end Tallied

end Network

open Network

variable {builtins : Registry} {options : NetworkOptions} {net net' : Network}

/-- What is performed and what is pending stays the same but for truths that are begun with and
for rules that are new. -/
theorem Move.tallied {s s' : Stage} (h : Move net s net' s') (hcourse : Course builtins options net s)
    (ih : s.replayed = false → net.Tallied s.log s.pending) (hs : s'.replayed = false) :
    net'.Tallied s'.log s'.pending := by
  cases h with
  | early hidle hmemory hc =>
    obtain ⟨_, hrunning⟩ := hcourse.running
    refine (ih hs).compiled hidle hc (fun id terminal hid => ?_) fun _ _ _ _ => rfl
    rw [hrunning.account.firesOf_eq_nil hrunning.wired hmemory hid]
    rfl
  | quiet hidle htruths hc =>
    refine (ih hs).compiled hidle hc (fun _ _ _ => rfl) fun id hid terminal hsome => ?_
    cases hsome.symm.trans (isTruth_iff.mp (htruths id hid))
  | late => cases hs
  | @truth _ id pending hid =>
    have hbefore := ih hs
    refine ⟨hbefore.total, hbefore.conditional, fun other p hp hnone => ?_⟩
    have hone := hbefore.truth other p hp hnone
    rw [firesOf_cons, Activation.fire?, List.length_append]
    rw [List.count_cons] at hone
    by_cases heq : id = other
    · simp only [heq, if_true, beq_self_eq_true, Option.toList_some, List.length_singleton] at hone ⊢
      omega
    · simp only [heq, if_false, beq_iff_eq, Option.toList_none, List.length_nil] at hone ⊢
      omega
  | fact | insert | offer | setCancellation =>
    exact ⟨(ih hs).total, (ih hs).conditional, (ih hs).truth⟩

/-- **As long as nothing is replayed, every firing counts once.** -/
theorem Course.tallied {s : Stage} (h : Course builtins options net s) (hs : s.replayed = false) :
    net.Tallied s.log s.pending := by
  induction h with
  | new => exact ⟨rfl, fun _ _ _ hp => (by cases hp), fun _ _ hp => (by cases hp)⟩
  | move hcourse hmove ih => exact hmove.tallied hcourse ih hs
  | perform hcourse hagenda ih =>
    obtain ⟨_, hrunning⟩ := hcourse.running
    exact (ih hs).perform hrunning hagenda
  | @forget net s hcourse ih =>
    have hwired := hcourse.wired
    have hfired : ∀ p ∈ net.forgotten.productions, p.fired = 0 := by
      intro p hp
      obtain ⟨old, _, rfl⟩ := List.mem_map.mp hp
      rfl
    refine ⟨(List.sum_eq_zero fun n hn => ?_).symm, fun id p _ hp _ => ?_, fun id p hp hnone => ?_⟩
    · obtain ⟨p, hp, rfl⟩ := List.mem_map.mp hn
      exact hfired p hp
    · exact hfired p (List.mem_of_getElem? hp)
    · have hid : id ∈ net.truths := by
        rw [hwired.production.mem_truths, ← terminal?_of_skeleton_eq net.skeleton_forgotten]
        exact (terminal?_of_production? hp).trans (congrArg some hnone)
      have hnodup : net.truths.Nodup := by
        rw [hwired.production.truths]
        exact net.nodup_productionIds.filter _
      rw [hfired p (List.mem_of_getElem? hp), List.count_eq_one_of_mem hnodup hid]
      rfl

/-- A network after calls that added no rule to facts, since it was made or reset. -/
def Timely (builtins : Registry) (options : NetworkOptions) (net : Network) : Prop :=
  ∃ ledger, History builtins options net ledger ∧ ledger.timely = true

/-- The matches of a body in the facts are the supports of the instances of its plan. -/
theorem Network.encard_matches {fed : List Triple} {log started : List Activation}
    (h : Running net fed log started []) (hidle : net.agenda = []) {rule : HornRule}
    {steps : List PlanStep} (hplan : plan net.builtins rule.body = .ok steps) :
    {support : List Triple | (∀ t ∈ support, t ∈ net.workingMemory.toList) ∧
      ∃ b, Matches net.builtins rule.body support b}.encard =
        (instances net.builtins (factsOf log) steps).length := by
  have hevaluable := evaluable_of_plan hplan
  have hfacts : (factsOf log).Perm net.workingMemory.toList := by
    have hperm := h.account.factsOf_perm
    rw [hidle, List.append_nil] at hperm
    exact List.append_nil (factsOf log) ▸ hperm
  have hnodup := nodup_support_instances hevaluable
    (hfacts.nodup_iff.mpr net.workingMemory.nodup)
  have hset : {support : List Triple | (∀ t ∈ support, t ∈ net.workingMemory.toList) ∧
      ∃ b, Matches net.builtins rule.body support b} =
        ((instances net.builtins (factsOf log) steps).map Instantiation.support).toFinset := by
    ext support
    rw [Set.mem_ofPred_eq, List.coe_toFinset, Set.mem_ofPred_eq, List.mem_map]
    constructor
    · rintro ⟨hsupport, b, hmatch⟩
      refine ⟨⟨support, b⟩, (mem_instances hevaluable _).mpr ⟨fun t ht => ?_, ?_⟩, rfl⟩
      · exact hfacts.symm.subset (hsupport t ht)
      · exact (matches_plan_iff hplan).mp hmatch
    · rintro ⟨i, hi, rfl⟩
      obtain ⟨hsupport, hmatch⟩ := (mem_instances hevaluable i).mp hi
      exact ⟨fun t ht => hfacts.subset (hsupport t ht), i.binding, (matches_plan_iff hplan).mpr hmatch⟩
  rw [hset, Set.encard_coe_eq_coe_finsetCard, List.toFinset_card_of_nodup hnodup, List.length_map]

/-- **No firing is lost and none is repeated.** If no rule was added to facts, then between calls
every production has fired as often as its body has matches in the facts, one match being one
list of facts for its patterns in order. A production without terminal node has fired once. The
network counts the firings of all productions. -/
theorem Timely.fired_exact (h : Timely builtins options net) :
    (∀ id p, net.production? id = some p →
      {support : List Triple | (∀ t ∈ support, t ∈ net.workingMemory.toList) ∧
        ∃ b, Matches builtins p.rule.body support b}.encard = p.fired ∧
      (p.terminal = none → p.fired = 1)) ∧
    net.firings = (net.productions.map Production.fired).sum := by
  obtain ⟨ledger, hhistory, htimely⟩ := h
  obtain ⟨hidle, log, replayed, hcourse, hreplayed⟩ := hhistory.course
  have htallied := hcourse.tallied (hreplayed htimely)
  obtain ⟨started, hrunning⟩ := hcourse.running
  have hwired := hrunning.wired
  refine ⟨fun id p hp => ?_, htallied.total⟩
  have hrule := rule?_of_production? hp
  have honce : p.terminal = none → p.fired = 1 := by
    intro hnone
    have htruth := htallied.truth id p hp hnone
    rwa [hidle, firesOf_nil, List.count_nil] at htruth
  refine ⟨?_, honce⟩
  obtain ⟨_, steps, hplan, ⟨rfl, hnone⟩ | ⟨terminal, he, hterminal⟩⟩ :=
    hwired.production.planned id p.rule hrule
  · have hcount := encard_matches hrunning hidle hplan
    rw [hcourse.constant.1] at hcount
    rw [hcount, honce (Option.some.inj ((terminal?_of_production? hp).symm.trans hnone))]
    rfl
  · have hcount := encard_matches hrunning hidle hplan
    rw [hcourse.constant.1] at hcount
    have hfires := (hrunning.account.firesOf_perm hwired hidle hterminal
      (hwired.beta.mem_betaIds he)).trans
        (outputs_perm hwired.beta (hrunning.account.delivered hidle) he)
    rw [hcount, htallied.conditional id p terminal hp
      (Option.some.inj ((terminal?_of_production? hp).symm.trans hterminal)), hfires.length_eq,
      hcourse.constant.1]

theorem Timely.fired_exact_of_chain : ∃ net p, Timely ∅ {} net ∧
    net.inferred.toList = [⟨.iri "b", .iri "q", .blank "sk_1"⟩, ⟨.iri "c", .iri "q", .blank "sk_2"⟩] ∧
    net.production? ⟨0⟩ = some p ∧ p.rule = continuation ∧
    {support : List Triple | (∀ t ∈ support, t ∈ net.workingMemory.toList) ∧
      ∃ b, Matches ∅ continuation.body support b}.encard = 2 := by
  have hrun : (((Network.new ∅).addRule 20 continuation).bind fun e =>
      (e.1.feed 20 chain).bind fun e' => (e'.1.production? ⟨0⟩).map fun p =>
        (e'.1.inferred.toList, p.rule, p.fired)) =
      some ([⟨.iri "b", .iri "q", .blank "sk_1"⟩, ⟨.iri "c", .iri "q", .blank "sk_2"⟩],
        continuation, 2) := by decide +kernel
  obtain ⟨⟨compiled, outcome⟩, hadd, hrest⟩ := Option.bind_eq_some_iff.mp hrun
  obtain ⟨⟨net, result⟩, hfeed, hp⟩ := Option.bind_eq_some_iff.mp hrest
  obtain ⟨p, hp, heq⟩ := Option.map_eq_some_iff.mp hp
  obtain ⟨hinferred, hpair⟩ := Prod.mk.inj heq
  obtain ⟨hrule, hfired⟩ := Prod.mk.inj hpair
  have htimely : Timely ∅ {} net := ⟨_, (History.new.addRule hadd).feed hfeed, rfl⟩
  refine ⟨net, p, htimely, hinferred, hp, hrule, ?_⟩
  have hcount := (htimely.fired_exact.1 ⟨0⟩ p hp).1
  rw [hrule, hfired] at hcount
  exact hcount

end HornReasoner
