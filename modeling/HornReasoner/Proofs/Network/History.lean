import HornReasoner.Proofs.Network.Batch
import HornReasoner.Proofs.Network.Compile
import HornReasoner.Proofs.Network.Rest

/-! Histories of calls.

A history is any sequence of calls that came to an end, each within some budget. The
ledger of a history keeps the rules that were not dropped and, since the last reset, the facts that
were fed, the reports on them and whether anything came late or was cut short. After every call the
network rests, and its rules and facts are those of the ledger (`History.keeps`). -/
namespace HornReasoner

namespace Network

/-- A call of a network. -/
inductive Call where
  | addRule (rule : HornRule)
  | addRules (rules : List HornRule)
  | feed (facts : List Triple) (stop : Readings := fun _ => false)
  | reset

/-- What a call answers. -/
def Call.Answer : Call → Type
  | addRule _ => RuleOutcome
  | addRules _ => BuildReport
  | feed .. => Except FeedError FeedReport
  | reset => Unit

def call (budget : Nat) (net : Network) : (c : Call) → Option (Network × c.Answer)
  | .addRule rule => net.addRule budget rule
  | .addRules rules => net.addRules budget rules
  | .feed facts stop => net.feed budget facts stop
  | .reset => (net.reset budget).map (·, ())

end Network

open Network

structure Ledger where
  rules : List HornRule := []
  /-- The facts fed since the last reset. -/
  facts : List Triple := []
  /-- The reports on the batches taken since the last reset. -/
  reports : List FeedReport := []
  /-- No batch since the last reset was cut short. -/
  unbroken : Bool := true
  /-- No rule was added to facts since the last reset. -/
  timely : Bool := true

/-- The ledger after a call, its network before the call and its answer. -/
def Ledger.after (ledger : Ledger) (net : Network) : (c : Call) → c.Answer → Ledger
  | .addRule rule, outcome => { ledger with
      rules := ledger.rules ++ outcome.kept rule
      timely := ledger.timely && (net.workingMemory.isEmpty || outcome.ids.isEmpty) }
  | .addRules rules, report => { ledger with
      rules := ledger.rules ++ net.keptRules rules
      timely := ledger.timely && (net.workingMemory.isEmpty || report.added.isEmpty) }
  | .feed facts _, result => { ledger with
      facts := ledger.facts ++ takenFacts facts result
      reports := ledger.reports ++ result.toOption.toList
      unbroken := ledger.unbroken && (result.isOk || (takenFacts facts result).isEmpty) }
  | .reset, _ => { rules := ledger.rules }

/-- A call that adds rules comes in time if there are no facts, or if no rule is new. -/
theorem Ledger.timely_iff {ledger : Ledger} {net : Network} {added : List ProductionId} :
    (ledger.timely && (net.workingMemory.isEmpty || added.isEmpty)) = true ↔
      ledger.timely = true ∧ (net.workingMemory.toList = [] ∨ added = []) := by
  rw [Bool.and_eq_true, Bool.or_eq_true, List.isEmpty_iff]
  exact Iff.rfl.and (or_congr_left List.isEmpty_iff)

/-- The networks that calls lead to, with what the calls were about. Between calls the flag may be
set or cleared. -/
inductive History (builtins : Registry) (options : NetworkOptions) : Network → Ledger → Prop where
  | new {drawn : String} : History builtins options (Network.new builtins options drawn) {}
  | call {net net' : Network} {ledger : Ledger} {budget : Nat} {c : Call} {answer : c.Answer} :
      History builtins options net ledger → net.call budget c = some (net', answer) →
      History builtins options net' (ledger.after net c answer)
  | setCancellation {net : Network} {ledger : Ledger} (flag : CancellationFlag) :
      History builtins options net ledger →
      History builtins options (net.setCancellation flag) ledger

namespace History

variable {builtins : Registry} {options : NetworkOptions} {net net' : Network} {ledger : Ledger}
  {budget : Nat}

theorem addRule {rule : HornRule} {outcome : RuleOutcome} (h : History builtins options net ledger)
    (hcall : net.addRule budget rule = some (net', outcome)) :
    History builtins options net' (ledger.after net (.addRule rule) outcome) :=
  h.call (c := .addRule rule) hcall

theorem addRules {rules : List HornRule} {report : BuildReport}
    (h : History builtins options net ledger)
    (hcall : net.addRules budget rules = some (net', report)) :
    History builtins options net' (ledger.after net (.addRules rules) report) :=
  h.call (c := .addRules rules) hcall

theorem feed {facts : List Triple} {stop : Readings} {result : Except FeedError FeedReport}
    (h : History builtins options net ledger)
    (hcall : net.feed budget facts stop = some (net', result)) :
    History builtins options net' (ledger.after net (.feed facts stop) result) :=
  h.call (c := .feed facts stop) hcall

theorem reset (h : History builtins options net ledger) (hcall : net.reset budget = some net') :
    History builtins options net' (ledger.after net .reset ()) :=
  h.call (c := .reset) (Option.map_eq_some_iff.mpr ⟨net', hcall, rfl⟩)

/-- Induction over a history, with a case for each call. -/
@[induction_eliminator]
theorem steps {motive : (net : Network) → (ledger : Ledger) → History builtins options net ledger → Prop}
    (new : ∀ {drawn}, motive (Network.new builtins options drawn) {} .new)
    (addRule : ∀ {net net' ledger budget rule outcome} (h : History builtins options net ledger)
      (hcall : Network.addRule budget net rule = some (net', outcome)), motive net ledger h →
      motive net' _ (h.addRule hcall))
    (addRules : ∀ {net net' ledger budget rules report} (h : History builtins options net ledger)
      (hcall : Network.addRules budget net rules = some (net', report)), motive net ledger h →
      motive net' _ (h.addRules hcall))
    (feed : ∀ {net net' ledger budget facts stop result} (h : History builtins options net ledger)
      (hcall : Network.feed budget net facts stop = some (net', result)), motive net ledger h →
      motive net' _ (h.feed hcall))
    (reset : ∀ {net net' ledger budget} (h : History builtins options net ledger)
      (hcall : Network.reset budget net = some net'), motive net ledger h →
      motive net' _ (h.reset hcall))
    (setCancellation : ∀ {net ledger} (flag : CancellationFlag)
      (h : History builtins options net ledger), motive net ledger h →
      motive (net.setCancellation flag) ledger (h.setCancellation flag))
    {net : Network} {ledger : Ledger} (h : History builtins options net ledger) :
    motive net ledger h := by
  refine History.rec new (fun {_ _ _ _ c _} h hcall ih => ?_)
    (fun flag h ih => setCancellation flag h ih) h
  cases c with
  | addRule rule => exact addRule h hcall ih
  | addRules rules => exact addRules h hcall ih
  | feed facts stop => exact feed h hcall ih
  | reset =>
    obtain ⟨net', hreset, heq⟩ := Option.map_eq_some_iff.mp hcall
    cases heq
    exact reset h hreset ih

end History

namespace Network

variable {net net' : Network} {fed : List Triple}

/-! ### No facts -/

/-- Without facts a plan has no instances. -/
theorem instances_nil {r : Registry} {steps : List PlanStep} (hsteps : steps ≠ [])
    (h : Evaluable r steps) : instances r [] steps = [] := by
  refine List.eq_nil_iff_forall_not_mem.mpr fun i hi => ?_
  obtain ⟨hsupport, hmatch⟩ := (mem_instances h i).mp hi
  have hnil : i.support = [] := List.eq_nil_iff_forall_not_mem.mpr fun t ht =>
    List.not_mem_nil (hsupport t ht)
  rcases h.starts_with_pattern with hempty | ⟨t, rest, rfl⟩
  · exact hsteps hempty
  · have ht : r.isTest t = false := by
      have hprefix : Evaluable r ([] ++ [.pattern t]) :=
        Evaluable.of_append (show Evaluable r ([.pattern t] ++ rest) from h)
      exact hprefix.of_snoc.2
    have hfacts := hmatch.facts
    rw [hnil, List.forall₂_nil_right_iff, PlanStep.atoms, List.map_cons, ← List.singleton_append,
      Registry.patterns_append] at hfacts
    have hpattern : r.patterns [PlanStep.triple (.pattern t)] = [t] :=
      Registry.patterns_of_not_isTest ht
    rw [hpattern] at hfacts
    cases hfacts

/-- Without facts the memories are empty. -/
theorem Resting.memories_empty {pending : List ProductionId} (h : net.Resting fed pending)
    (hempty : net.workingMemory.toList = []) :
    ∀ node ∈ net.betas, node.leftMemory = [] ∧ node.rightMemory = [] := by
  obtain ⟨log, started, hrunning⟩ := h.running
  have haccount := hrunning.account
  have hfacts : factsOf log = [] := List.eq_nil_iff_forall_not_mem.mpr fun t ht => by
    have hmem := haccount.factsOf_subset ht
    rw [hempty] at hmem
    exact List.not_mem_nil hmem
  have houtputs : ∀ id ∈ net.betaIds, net.outputs log id = [] := by
    intro id hid
    obtain ⟨steps, he⟩ := hrunning.wired.beta.exists_plan hid
    obtain ⟨hsteps, hevaluable⟩ := hrunning.wired.beta.evaluable _ he
    have hsubset := outputs_subset hrunning.wired.beta haccount.covered he
    rw [hfacts, instances_nil hsteps hevaluable] at hsubset
    exact List.subset_nil.mp hsubset
  have hset : net.setOff log = [] := by
    rw [setOff, hfacts, List.flatMap_nil, List.nil_append]
    refine List.flatMap_eq_nil_iff.mpr fun id hid => ?_
    rw [houtputs id hid, List.flatMap_nil]
  intro node hnode
  obtain ⟨n, hn⟩ := List.mem_iff_getElem?.mp hnode
  have hholds := haccount.memories ⟨n⟩ node hn
  have hlefts : leftsOf ⟨n⟩ log = [] := by
    have hsubset := haccount.covered.lefts ⟨n⟩
    rw [hset] at hsubset
    exact List.subset_nil.mp hsubset
  have hrights : rightsOf ⟨n⟩ log = [] := by
    have hsubset := haccount.covered.rights ⟨n⟩
    rw [hset] at hsubset
    exact List.subset_nil.mp hsubset
  have hleft := hholds.left
  have hright := hholds.right
  have hkeeps : node.keeps [] = [] := by
    unfold BetaNode.keeps
    split <;> rfl
  rw [hlefts, hkeeps] at hleft
  rw [hrights] at hright
  exact ⟨hleft.eq_nil, hright.eq_nil⟩

/-! ### New rules -/

/-- What is set off depends on the nodes only. -/
theorem setOff_congr (halphas : net'.alphas = net.alphas) (hbetas : net'.betas = net.betas)
    (hbuiltins : net'.builtins = net.builtins) (log : List Activation) :
    net'.setOff log = net.setOff log := by
  have halong : net'.alongEdges = net.alongEdges := by
    funext fact
    rw [alongEdges, edges, halphas, alongEdges, edges]
  have hjoint : net'.joint? = net.joint? := by
    funext id
    rw [joint?, hbetas, joint?]
  have hfollow : net'.follow = net.follow := by
    funext id i
    rw [follow, hjoint, follow]
  have hids : net'.betaIds = net.betaIds := by
    rw [betaIds, hbetas, betaIds]
  simp only [setOff, outputs, halong, hjoint, hfollow, hids, hbuiltins]

theorem Extends.grows (h : Extends net net') : Grows net net' where
  builtins := h.builtins
  rules := h.rules
  memory := h.memory ▸ List.prefix_rfl
  inferred := by
    rw [h.inferred]
    exact fun _ ht => ht
  minted := h.skolem ▸ List.prefix_rfl

/-- Without new nodes the run that led to rest is one of the new network. -/
theorem Compiled.running {kept : List HornRule} {added : List ProductionId}
    {log started : List Activation} (hc : Compiled net net' kept added)
    (halphas : net'.alphas = net.alphas) (hbetas : net'.betas = net.betas)
    (h : Running net fed log started []) : Running net' fed log started [] where
  wired := hc.wired
  account :=
    { balance := by
        rw [hc.grown.agenda, setOff_congr halphas hbetas hc.grown.builtins]
        exact h.account.balance
      memories := by
        rw [hbetas]
        exact h.account.memories
      facts := hc.grown.memory ▸ h.account.facts
      begun := by
        intro a ha
        refine (h.account.begun a ha).imp_right ?_
        rintro ⟨id, hid, rfl⟩
        refine ⟨id, ?_, rfl⟩
        rw [h.wired.production.mem_truths] at hid
        rw [hc.wired.production.mem_truths]
        obtain ⟨rule, hrule⟩ := exists_rule hid
        rw [h.wired.terminal?_eq_none_iff hrule] at hid
        rw [hc.wired.terminal?_eq_none_iff (hc.grown.rules id _ hrule), hc.grown.builtins]
        exact hid }
  held := by
    intro id i hfire rule hrule
    obtain ⟨other, hother, _⟩ := h.account.fire_sound h.wired (List.mem_append_left _ hfire)
    cases hrule.symm.trans (hc.grown.rules id other hother)
    exact hc.grown.grows.held (h.held id i hfire rule hother)
  grounded := h.grounded.of_same hc.grown.grows hc.grown.memory hc.grown.inferred hc.grown.skolem

/-- The production holds unconditionally. -/
def isTruth (net : Network) (id : ProductionId) : Bool :=
  (net.production? id).any Production.isUniversalTruth

theorem isTruth_iff {id : ProductionId} : net.isTruth id = true ↔ net.terminal? id = some none := by
  rw [isTruth, terminal?]
  cases net.production? id with
  | none => simp
  | some p => simp [Production.isUniversalTruth]

/-- An activation asserts the new truths last. Before that it replays the facts, unless there
are none or all that is new are truths. -/
theorem activate_eq (net : Network) (added : List ProductionId) :
    (∀ budget, net.activate budget added = (net.replay budget).bind fun middle =>
        middle.assertTruths budget (added.filter net.isTruth)) ∧
      net.workingMemory.toList ≠ [] ∧ added ≠ [] ∨
    (∀ budget, net.activate budget added =
        net.assertTruths budget (added.filter net.isTruth)) ∧
      (net.workingMemory.toList = [] ∨ ∀ id ∈ added, net.isTruth id = true) := by
  unfold Network.activate
  simp only [List.partition_eq_filter_filter]
  split
  · rename_i hcondition
    refine .inl ⟨fun _ => rfl, fun hmemory => ?_, fun hnil => ?_⟩
    · have hempty : net.workingMemory.isEmpty = true := List.isEmpty_iff.mpr hmemory
      simp [hempty] at hcondition
    · simp [hnil] at hcondition
  · rename_i hcondition
    refine .inr ⟨fun _ => rfl, ?_⟩
    by_cases hmemory : net.workingMemory.toList = []
    · exact .inl hmemory
    · right
      have hnonempty : net.workingMemory.isEmpty = false :=
        Bool.eq_false_iff.mpr fun hnil => hmemory (List.isEmpty_iff.mp hnil)
      intro id hid
      simp only [hnonempty, Bool.not_false, Bool.and_true, Bool.not_eq_true, Bool.not_eq_false',
        List.isEmpty_iff, List.filter_eq_nil_iff] at hcondition
      simpa [isTruth] using hcondition id hid

theorem activate_eq_some {budget : Nat} {added : List ProductionId} {final : Network}
    (h : net.activate budget added = some final) : ∃ middle,
      middle.assertTruths budget (added.filter net.isTruth) = some final ∧
        (net.replay budget = some middle ∧ net.workingMemory.toList ≠ [] ∧ added ≠ [] ∨
          middle = net ∧ (net.workingMemory.toList = [] ∨ ∀ id ∈ added, net.isTruth id = true)) := by
  rcases net.activate_eq added with ⟨heq, hnew⟩ | ⟨heq, hquiet⟩
  · obtain ⟨middle, hreplay, hfinal⟩ := Option.bind_eq_some_iff.mp ((heq budget).symm.trans h)
    exact ⟨middle, hfinal, .inl ⟨hreplay, hnew⟩⟩
  · exact ⟨net, (heq budget).symm.trans h, .inr ⟨rfl, hquiet⟩⟩

/-- What a run keeps, several runs keep. -/
theorem runs_keep {α β : Type} {g : Network → β} {budget : Nat}
    (hrun : ∀ {net net' : Network} {a : Activation}, net.run budget a = some net' → g net' = g net)
    {f : α → Activation} {items : List α}
    (h : items.foldlM (fun net item => Network.run budget net (f item)) net = some net') :
    g net' = g net := by
  induction items generalizing net with
  | nil =>
    cases h
    rfl
  | cons item rest ih =>
    rw [List.foldlM_cons] at h
    obtain ⟨next, hnext, hrest⟩ := Option.bind_eq_some_iff.mp h
    exact (ih hrest).trans (hrun hnext)

/-- What a run keeps, and clearing the memories, an activation of new rules keeps. -/
theorem activate_keeps {β : Type} {g : Network → β} {budget : Nat}
    (hrun : ∀ {net net' : Network} {a : Activation}, net.run budget a = some net' → g net' = g net)
    (hclear : ∀ net : Network, g { net with betas := net.betas.map BetaNode.clear } = g net)
    {added : List ProductionId} (h : net.activate budget added = some net') : g net' = g net := by
  obtain ⟨middle, hfinal, hmiddle⟩ := activate_eq_some h
  refine (runs_keep hrun hfinal).trans ?_
  rcases hmiddle with ⟨hreplay, _⟩ | ⟨rfl, _⟩
  · exact (runs_keep (f := .fact) hrun hreplay).trans (hclear net)
  · rfl

/-- Before new truths are asserted, the run that led to rest is one of the new network. -/
theorem Resting.resume {kept : List HornRule} {added : List ProductionId} (h : net.Resting fed [])
    (hc : Compiled net net' kept added) {budget : Nat} {middle : Network}
    (hm : net'.replay budget = some middle ∨ middle = net' ∧
      (net'.workingMemory.toList = [] ∨ ∀ id ∈ added, net'.isTruth id = true)) :
    Advanced net' middle ∧ ∃ log started, Running middle fed log started [] := by
  obtain ⟨log, started, hrunning⟩ := h.running
  have hidle : net'.agenda = [] := hc.grown.agenda.trans h.idle
  have hgrounded := hrunning.grounded.of_same hc.grown.grows hc.grown.memory hc.grown.inferred
    hc.grown.skolem
  rcases hm with hreplay | ⟨rfl, hmemory | htruths⟩
  · exact replay_spec hc.wired hidle hgrounded hreplay
  · have hempty : net.workingMemory.toList = [] := hc.grown.memory ▸ hmemory
    have hstart := Running.start hc.wired hidle hgrounded
      (hc.grown.empty (h.memories_empty hempty))
    rw [hmemory] at hstart
    exact ⟨.refl hidle, [], [], hstart⟩
  · obtain ⟨halphas, hbetas⟩ := hc.quiet fun id hid => isTruth_iff.mp (htruths id hid)
    exact ⟨.refl hidle, log, started, hc.running halphas hbetas hrunning⟩

/-- What was a truth has its conclusions, what is a new one is pending. -/
theorem Resting.pending {kept : List HornRule} {added : List ProductionId} (h : net.Resting fed [])
    (hc : Compiled net net' kept added) {middle : Network} (hadvanced : Advanced net' middle)
    (hrun : ∃ log started, Running middle fed log started []) :
    middle.Resting fed (added.filter net'.isTruth) := by
  refine ⟨hadvanced.idle, hrun, fun id hid hnot => hadvanced.held fun rule hrule => ?_⟩
  rw [truths_of_skeleton_eq hadvanced.skeleton] at hid
  have hold : id ∈ net.truths := by
    refine (hc.truths id hid).resolve_right fun hin => hnot ?_
    exact List.mem_filter.mpr ⟨hin, isTruth_iff.mpr (hc.wired.production.mem_truths.mp hid)⟩
  obtain ⟨other, hrule'⟩ := exists_rule (h.wired.production.mem_truths.mp hold)
  cases hrule.symm.trans (hc.grown.rules id _ hrule')
  exact hc.grown.grows.held (h.truths id hold List.not_mem_nil _ hrule')

/-- Rules that were compiled are activated: the network rests again. -/
theorem Resting.activate {kept : List HornRule} {added : List ProductionId}
    (h : net.Resting fed []) (hc : Compiled net net' kept added) {budget : Nat} {final : Network}
    (ha : net'.activate budget added = some final) :
    final.skeleton = net'.skeleton ∧ final.Resting fed [] := by
  obtain ⟨middle, hfinal, hm⟩ := activate_eq_some ha
  obtain ⟨hadvanced, hrun⟩ := h.resume hc (hm.imp_left And.left)
  have htruths : ∀ id ∈ added.filter net'.isTruth, id ∈ middle.truths := by
    intro id hid
    rw [truths_of_skeleton_eq hadvanced.skeleton, hc.wired.production.mem_truths]
    exact isTruth_iff.mp (List.mem_filter.mp hid).2
  obtain ⟨hmore, hdone⟩ := (h.pending hc hadvanced hrun).assertTruths htruths hfinal
  exact ⟨hmore.skeleton.trans hadvanced.skeleton, hdone⟩

/-! ### Calls -/

/-- A network without rules rests. -/
theorem resting_new (builtins : Registry) (options : NetworkOptions) (drawn : String) :
    (Network.new builtins options drawn).Resting [] [] := by
  have hrule : ∀ id, (Network.new builtins options drawn).rule? id = none := fun id => rfl
  have hproductions : ∀ terminal,
      (Network.new builtins options drawn).productionsAt terminal = [] := fun terminal => rfl
  have hwired : (Network.new builtins options drawn).Wired := by
    refine ⟨⟨fun id edge hedge => ?_, fun key id hfound => ?_, fun t => rfl, rfl⟩,
      ⟨rfl, .nil, fun e he => absurd he List.not_mem_nil, .nil,
        fun e he => absurd he List.not_mem_nil⟩,
      ⟨fun id rule hr => ?_, fun id node hnode => ?_, (hproductions none).symm,
        fun sig id hfound => ?_⟩⟩
    · exact absurd hedge List.not_mem_nil
    · cases hfound
    · rw [hrule] at hr
      cases hr
    · cases hnode
    · cases hfound
  refine ⟨rfl, ⟨[], [], .start hwired rfl ⟨by simp, ?_, ?_, ?_⟩ ?_⟩, ?_⟩
  all_goals exact fun _ h => absurd h List.not_mem_nil

theorem Running.setCancellation {log started : List Activation} {owed : List Triple}
    (h : Running net fed log started owed) (flag : CancellationFlag) :
    Running (net.setCancellation flag) fed log started owed where
  wired := h.wired.of_skeleton_eq rfl
  account := ⟨h.account.balance, h.account.memories, h.account.facts, h.account.begun⟩
  held := h.held
  grounded := h.grounded.of_same (.of_same rfl rfl rfl rfl) rfl rfl rfl

theorem Resting.setCancellation (h : net.Resting fed []) (flag : CancellationFlag) :
    (net.setCancellation flag).Resting fed [] := by
  obtain ⟨log, started, hrunning⟩ := h.running
  exact ⟨h.idle, ⟨log, started, hrunning.setCancellation flag⟩, h.truths⟩

theorem Resting.feed (h : net.Resting fed []) {budget : Nat} {facts : List Triple}
    {stop : Readings} {result : Except FeedError FeedReport}
    (hf : net.feed budget facts stop = some (net', result)) :
    net'.skeleton = net.skeleton ∧ net'.Resting (fed ++ takenFacts facts result) [] := by
  refine feed_induction (P := fun other fed => other.skeleton = net.skeleton ∧ other.Resting fed [])
    (fun other fed t hother ht => ⟨hother.1, hother.2.feed_known ht⟩)
    (fun other fed t next hother ht hr => ?_) ⟨rfl, h⟩ hf
  obtain ⟨hskeleton, hresting⟩ := hother.2.feed_new ht hr
  exact ⟨hskeleton.trans hother.1, hresting⟩

/-- The network rests, its rules are those of the ledger, and its facts come from those. -/
structure Keeps (net : Network) (builtins : Registry) (ledger : Ledger) : Prop where
  registry : net.builtins = builtins
  resting : net.Resting ledger.facts []
  rules : ∀ id rule, net.rule? id = some rule → rule ∈ ledger.rules
  found : ∀ rule ∈ ledger.rules, (∃ id other, net.rule? id = some other ∧
    RuleSignature.of other = RuleSignature.of rule) ∧ ∃ steps, plan builtins rule.body = .ok steps

theorem Keeps.of_skeleton_eq {builtins : Registry} {ledger ledger' : Ledger}
    (h : net.Keeps builtins ledger) (hskeleton : net'.skeleton = net.skeleton)
    (hrules : ledger'.rules = ledger.rules) (hresting : net'.Resting ledger'.facts []) :
    net'.Keeps builtins ledger' where
  registry := (builtins_of_skeleton_eq hskeleton).trans h.registry
  resting := hresting
  rules id rule hrule :=
    hrules ▸ h.rules id rule ((rule?_of_skeleton_eq hskeleton id).symm.trans hrule)
  found rule hrule := by
    obtain ⟨⟨id, other, hother, hsig⟩, hplan⟩ := h.found rule (hrules ▸ hrule)
    exact ⟨⟨id, other, (rule?_of_skeleton_eq hskeleton id).trans hother, hsig⟩, hplan⟩

/-- New rules, activated. -/
theorem Keeps.activate {builtins : Registry} {ledger ledger' : Ledger}
    (h : net.Keeps builtins ledger) {kept : List HornRule} {added : List ProductionId}
    (hc : Compiled net net' kept added) {budget : Nat} {final : Network}
    (ha : net'.activate budget added = some final) (hrules : ledger'.rules = ledger.rules ++ kept)
    (hfacts : ledger'.facts = ledger.facts) : final.Keeps builtins ledger' := by
  obtain ⟨hskeleton, hresting⟩ := h.resting.activate hc ha
  have hrule := rule?_of_skeleton_eq hskeleton
  refine ⟨(builtins_of_skeleton_eq hskeleton).trans (hc.grown.builtins.trans h.registry),
    hfacts ▸ hresting, fun id rule hr => ?_, fun rule hr => ?_⟩
  · rw [hrule] at hr
    rw [hrules]
    exact List.mem_append.mpr ((hc.rules id rule hr).imp_left (h.rules id rule))
  · rw [hrules] at hr
    rcases List.mem_append.mp hr with hr | hr
    · obtain ⟨⟨id, other, hother, hsig⟩, hplan⟩ := h.found rule hr
      exact ⟨⟨id, other, (hrule id).trans (hc.grown.rules id other hother), hsig⟩, hplan⟩
    · obtain ⟨⟨id, other, hother, hsig⟩, hplan⟩ := hc.found rule hr
      exact ⟨⟨id, other, (hrule id).trans hother, hsig⟩, h.registry ▸ hplan⟩

/-- What a call compiles, it activates. -/
theorem addRule_spec (h : net.Wired) {budget : Nat} {rule : HornRule} {outcome : RuleOutcome}
    (hcall : net.addRule budget rule = some (net', outcome)) :
    Compiled net (net.compile rule).1 (outcome.kept rule) outcome.ids ∧
      (net.compile rule).1.activate budget outcome.ids = some net' := by
  have hc := compile_spec h rule
  unfold Network.addRule at hcall
  split at hcall
  · rename_i compiled id hcompile
    rw [hcompile] at hc ⊢
    obtain ⟨final, hfinal, heq⟩ := Option.map_eq_some_iff.mp hcall
    cases heq
    exact ⟨hc, hfinal⟩
  · rename_i hnot
    have heq := Option.some.inj hcall
    have hids : outcome.ids = [] := by
      cases outcome with
      | added id => exact absurd heq (hnot net' id)
      | duplicate id | dropped diagnostic => rfl
    rw [heq] at hc ⊢
    rw [hids] at hc ⊢
    exact ⟨hc, rfl⟩

theorem addRules_spec (h : net.Wired) {budget : Nat} {rules : List HornRule}
    {report : BuildReport} (hcall : net.addRules budget rules = some (net', report)) :
    Compiled net (net.compileAll {} rules).1 (net.keptRules rules) report.added ∧
      (net.compileAll {} rules).1.activate budget report.added = some net' := by
  obtain ⟨added, hadded, hc⟩ := compileAll_spec h rules {}
  obtain ⟨final, hfinal, heq⟩ := Option.map_eq_some_iff.mp hcall
  cases heq
  have hreport : (net.compileAll {} rules).2.added = added := hadded
  rw [← hreport] at hc
  exact ⟨hc, hfinal⟩

/-! ### Rulebooks -/

theorem rulebook_of_skeleton_eq (h : net'.skeleton = net.skeleton) :
    net'.rulebook = net.rulebook := by
  have hrules : ∀ other : Network, other.productions.map Production.rule =
      other.skeleton.productions.map Production.rule := by
    intro other
    rw [skeleton, List.map_map]
    rfl
  have hindex : net'.signatureIndex = net.signatureIndex :=
    (congrArg Network.signatureIndex h :)
  rw [rulebook, rulebook, hrules net', hrules net, h, hindex, builtins_of_skeleton_eq h]

/-- The rules of a batch go into the rulebook in turn. -/
theorem Resting.rulebook_addRules (h : net.Resting fed []) {budget : Nat} {rules : List HornRule}
    {report : BuildReport} (hcall : net.addRules budget rules = some (net', report)) :
    net'.rulebook = rules.foldl Rulebook.add net.rulebook := by
  obtain ⟨hc, hactivate⟩ := addRules_spec h.wired hcall
  rw [rulebook_of_skeleton_eq (h.activate hc hactivate).1, rulebook_compileAll h.wired]

theorem Resting.rulebook_feed (h : net.Resting fed []) {budget : Nat} {facts : List Triple}
    {stop : Readings} {result : Except FeedError FeedReport}
    (hf : net.feed budget facts stop = some (net', result)) :
    net'.rulebook = net.rulebook :=
  rulebook_of_skeleton_eq (h.feed hf).1

end Network

open Network

/-- **After every call the network rests and keeps what the ledger says.** -/
theorem History.keeps {builtins : Registry} {options : NetworkOptions} {net : Network}
    {ledger : Ledger} (h : History builtins options net ledger) : net.Keeps builtins ledger := by
  induction h with
  | new =>
    exact ⟨rfl, resting_new .., fun _ _ hr => (by cases hr),
      fun rule hrule => absurd hrule List.not_mem_nil⟩
  | addRule _ hcall ih =>
    obtain ⟨hc, hactivate⟩ := addRule_spec ih.resting.wired hcall
    exact ih.activate hc hactivate rfl rfl
  | addRules _ hcall ih =>
    obtain ⟨hc, hactivate⟩ := addRules_spec ih.resting.wired hcall
    exact ih.activate hc hactivate rfl rfl
  | feed _ hcall ih =>
    obtain ⟨hskeleton, hresting⟩ := ih.resting.feed hcall
    exact ih.of_skeleton_eq hskeleton rfl hresting
  | reset _ hcall ih =>
    obtain ⟨hskeleton, hresting⟩ := reset_spec ih.resting.wired hcall
    exact ih.of_skeleton_eq hskeleton rfl hresting
  | @setCancellation net ledger flag _ ih =>
    have hskeleton : (net.setCancellation flag).skeleton = net.skeleton := rfl
    exact ih.of_skeleton_eq hskeleton rfl (ih.resting.setCancellation flag)

/-- Rules of which none is dropped are all in the ledger. -/
theorem Ledger.rules_after_of_dropped_eq_nil {net net' : Network} (ledger : Ledger) {budget : Nat}
    {rules : List HornRule} {report : BuildReport}
    (hcall : net.addRules budget rules = some (net', report)) (hsilent : report.dropped = []) :
    (ledger.after net (.addRules rules) report).rules = ledger.rules ++ rules := by
  obtain ⟨_, _, heq⟩ := Option.map_eq_some_iff.mp hcall
  have hreport : (net.compileAll {} rules).2 = report := congrArg Prod.snd heq
  rw [← hreport] at hsilent
  exact congrArg (ledger.rules ++ ·) (keptRules_of_dropped_eq_nil hsilent).2

/-- No rule with a head and a plan is dropped. -/
theorem History.dropped_eq_nil {builtins : Registry} {options : NetworkOptions}
    {net net' : Network} {ledger : Ledger} (h : History builtins options net ledger) {budget : Nat}
    {rules : List HornRule} {report : BuildReport}
    (hcall : net.addRules budget rules = some (net', report))
    (hrules : ∀ rule ∈ rules, rule.head ≠ [] ∧ ∃ steps, plan builtins rule.body = .ok steps) :
    report.dropped = [] := by
  obtain ⟨_, _, heq⟩ := Option.map_eq_some_iff.mp hcall
  have hreport : (net.compileAll {} rules).2 = report := congrArg Prod.snd heq
  rw [← h.keeps.registry] at hrules
  rw [← hreport]
  exact dropped_compileAll h.keeps.resting.wired {} hrules

/-! ### A rule and a batch -/

/-- Adds a rule to a new network and feeds facts. -/
def Network.ofRule (rule : HornRule) (budget : Nat) (facts : List Triple) :
    Option (Network × Except FeedError FeedReport) :=
  ((Network.new ∅).addRule budget rule).bind fun e => e.1.feed budget facts

theorem History.of_ofRule {rule : HornRule} {budget : Nat} {facts : List Triple} {net : Network}
    {result : Except FeedError FeedReport} (h : Network.ofRule rule budget facts = some (net, result)) :
    ∃ ledger, History ∅ {} net ledger ∧ (∀ other ∈ ledger.rules, other = rule) ∧
      ledger.facts = takenFacts facts result := by
  obtain ⟨⟨compiled, outcome⟩, hrule, hfeed⟩ := Option.bind_eq_some_iff.mp h
  refine ⟨_, (History.new.addRule hrule).feed hfeed, fun other hother => ?_, rfl⟩
  cases outcome with
  | added id | duplicate id => exact List.mem_singleton.mp hother
  | dropped diagnostic => exact absurd hother List.not_mem_nil

/-- The transitivity of a relation `p`. -/
def transitivity : HornRule :=
  .ofAtoms "transitivity"
    [⟨.var ⟨"x"⟩, .iri "p", .var ⟨"y"⟩⟩, ⟨.var ⟨"y"⟩, .iri "p", .var ⟨"z"⟩⟩]
    [⟨.var ⟨"x"⟩, .iri "p", .var ⟨"z"⟩⟩]

/-- Whatever the relation `p` leads to is related by `q` to something. -/
def continuation : HornRule :=
  .ofAtoms "continuation" [⟨.var ⟨"x"⟩, .iri "p", .var ⟨"y"⟩⟩]
    [⟨.var ⟨"y"⟩, .iri "q", .var ⟨"z"⟩⟩]

/-- The relation `p` from `a` to `b` and from `b` to `c`. -/
def chain : List Triple := [⟨.iri "a", .iri "p", .iri "b"⟩, ⟨.iri "b", .iri "p", .iri "c"⟩]

end HornReasoner
