import HornReasoner.Proofs.Network.Fixpoint

/-! The course of calls.

A history tells the calls, its course every activation in between. `Course` lists what can
happen to a network next: an activation is performed, everything is forgotten, or the network
moves on without either (`Move`): an activation is begun with, a fact comes in, rules are compiled.
What each of these keeps holds at every moment, and so between calls (`History.course`). Every
moment has its run (`Course.running`). -/
namespace HornReasoner

open Network

/-- A moment of a history. -/
structure Stage where
  /-- The facts fed since the last reset. -/
  fed : List Triple := []
  /-- What was performed since the memories were last cleared. -/
  log : List Activation := []
  /-- The facts that the run was not begun with yet. -/
  owed : List Triple := []
  /-- The truths still to be asserted. -/
  pending : List ProductionId := []
  /-- Facts were replayed since the last reset. -/
  replayed : Bool := false

/-- What leads from one moment to the next when nothing is performed and nothing forgotten. -/
inductive Move : Network → Stage → Network → Stage → Prop where
  /-- Rules come before all facts. -/
  | early {net net' : Network} {fed : List Triple} {log : List Activation} {replayed : Bool}
      {kept : List HornRule} {added : List ProductionId} :
      net.agenda = [] → net.workingMemory.toList = [] → Compiled net net' kept added →
      Move net { fed, log, replayed } net' { fed, pending := added.filter net'.isTruth, replayed }
  /-- Rules come that hold unconditionally. -/
  | quiet {net net' : Network} {fed : List Triple} {log : List Activation} {replayed : Bool}
      {kept : List HornRule} {added : List ProductionId} :
      net.agenda = [] → (∀ id ∈ added, net'.isTruth id = true) → Compiled net net' kept added →
      Move net { fed, log, replayed } net'
        { fed, log, pending := added.filter net'.isTruth, replayed }
  /-- Rules come late: the facts are to be replayed. -/
  | late {net net' : Network} {fed : List Triple} {log : List Activation} {replayed : Bool}
      {kept : List HornRule} {added : List ProductionId} :
      net.agenda = [] → Compiled net net' kept added →
      Move net { fed, log, replayed } { net' with betas := net'.betas.map BetaNode.clear }
        { fed, owed := net'.workingMemory.toList, pending := added.filter net'.isTruth,
          replayed := true }
  | fact {net : Network} {s : Stage} {t : Triple} {owed : List Triple} :
      Move net { s with owed := t :: owed } { net with agenda := .fact t :: net.agenda }
        { s with owed := owed }
  | truth {net : Network} {s : Stage} {id : ProductionId} {pending : List ProductionId} :
      id ∈ net.truths →
      Move net { s with pending := id :: pending } { net with agenda := .fire id {} :: net.agenda }
        { s with pending := pending }
  /-- A fact comes that is new. -/
  | insert {net : Network} {s : Stage} {t : Triple} : t ∉ net.workingMemory.toList →
      Move net s { net with workingMemory := net.workingMemory.insert t }
        { s with fed := s.fed ++ [t], owed := t :: s.owed }
  /-- A fact comes that is known. -/
  | offer {net : Network} {s : Stage} {t : Triple} : t ∈ net.workingMemory.toList →
      Move net s net { s with fed := s.fed ++ [t] }
  | setCancellation {net : Network} {s : Stage} (flag : CancellationFlag) :
      Move net s (net.setCancellation flag) s

/-- The moments that calls lead through. -/
inductive Course (builtins : Registry) (options : NetworkOptions) : Network → Stage → Prop where
  | new {drawn : String} : Course builtins options (.new builtins options drawn) {}
  | move {net net' : Network} {s s' : Stage} : Course builtins options net s →
      Move net s net' s' → Course builtins options net' s'
  | perform {net : Network} {s : Stage} {a : Activation} {rest : List Activation} :
      Course builtins options net s → net.agenda = a :: rest →
      Course builtins options ({ net with agenda := rest }.perform a)
        { s with log := s.log ++ [a] }
  | forget {net : Network} {s : Stage} : Course builtins options net s →
      Course builtins options net.forgotten { pending := net.truths }

variable {builtins : Registry} {options : NetworkOptions} {net net' : Network} {s s' : Stage}

theorem Network.options_of_skeleton_eq (h : net'.skeleton = net.skeleton) :
    net'.options = net.options :=
  show net'.skeleton.options = net.skeleton.options by rw [h]

namespace Move

/-- Facts and conclusions stay, and the table stays as it is. -/
theorem keeps (h : Move net s net' s') : Grows net net' ∧ net'.skolem = net.skolem := by
  cases h with
  | early _ _ hc | quiet _ _ hc => exact ⟨hc.grown.grows, hc.grown.skolem⟩
  | @late compiled _ _ _ _ _ _ hc =>
    exact ⟨hc.grown.grows.trans (.of_same compiled.skeleton_cleared rfl rfl rfl), hc.grown.skolem⟩
  | fact | truth | setCancellation => exact ⟨.of_same rfl rfl rfl rfl, rfl⟩
  | insert ht => exact ⟨grows_insert ht, rfl⟩
  | offer => exact ⟨.refl _, rfl⟩

theorem options_eq (h : Move net s net' s') : net'.options = net.options := by
  cases h with
  | early _ _ hc | quiet _ _ hc | late _ hc => exact hc.grown.options
  | fact | truth | insert | offer | setCancellation => rfl

/-- A moment of a run leads to one of a run. -/
theorem running (h : Move net s net' s') {started : List Activation}
    (hrunning : Running net s.fed s.log started s.owed) :
    ∃ started', Running net' s'.fed s'.log started' s'.owed := by
  cases h with
  | early hidle hmemory hc =>
    have hresting : net.Resting _ net.truths :=
      ⟨hidle, ⟨_, started, hrunning⟩, fun id hid hnot => absurd hid hnot⟩
    have hstart := Running.start hc.wired (hc.grown.agenda.trans hidle)
      (hrunning.grounded.of_same hc.grown.grows hc.grown.memory hc.grown.inferred hc.grown.skolem)
      (hc.grown.empty (hresting.memories_empty hmemory))
    rw [hc.grown.memory, hmemory] at hstart
    exact ⟨[], hstart⟩
  | quiet _ htruths hc =>
    obtain ⟨halphas, hbetas⟩ := hc.quiet fun id hid => isTruth_iff.mp (htruths id hid)
    exact ⟨started, hc.running halphas hbetas hrunning⟩
  | late hidle hc =>
    exact ⟨[], .cleared hc.wired (hc.grown.agenda.trans hidle) (hrunning.grounded.of_same
      hc.grown.grows hc.grown.memory hc.grown.inferred hc.grown.skolem)⟩
  | fact => exact ⟨_, hrunning.push (.inl ⟨_, rfl⟩) rfl⟩
  | truth hid => exact ⟨_, hrunning.push (.inr ⟨_, hid, rfl⟩) (List.nil_append _)⟩
  | insert ht => exact ⟨started, hrunning.insert ht⟩
  | offer ht => exact ⟨started, hrunning.offer ht⟩
  | setCancellation flag => exact ⟨started, hrunning.setCancellation flag⟩

end Move

namespace Course

/-! ### Every moment -/

/-- What a network was made with stays. -/
theorem constant (h : Course builtins options net s) :
    net.builtins = builtins ∧ net.options = options := by
  induction h with
  | new => exact ⟨rfl, rfl⟩
  | move _ hmove ih => exact ⟨hmove.keeps.1.builtins.trans ih.1, hmove.options_eq.trans ih.2⟩
  | @perform net _ a rest _ _ ih =>
    have hskeleton : ({ net with agenda := rest }.perform a).skeleton = net.skeleton :=
      (skeleton_perform _ a).trans (skeleton_agenda net rest)
    exact ⟨(builtins_of_skeleton_eq hskeleton).trans ih.1,
      (options_of_skeleton_eq hskeleton).trans ih.2⟩
  | forget _ ih => exact ih

/-- **Every moment is one of a run** whose log and facts are those of the stage. -/
theorem running (h : Course builtins options net s) :
    ∃ started, Running net s.fed s.log started s.owed := by
  induction h with
  | @new drawn =>
    obtain ⟨_, _, h⟩ := (resting_new builtins options drawn).running
    exact ⟨[], .start h.wired rfl h.grounded fun node hnode => absurd hnode List.not_mem_nil⟩
  | move _ hmove ih =>
    obtain ⟨_, h⟩ := ih
    exact hmove.running h
  | perform _ hagenda ih =>
    obtain ⟨_, h⟩ := ih
    obtain ⟨_, hnext, _⟩ := h.perform hagenda
    exact ⟨_, hnext⟩
  | forget _ ih =>
    obtain ⟨_, h⟩ := ih
    exact ⟨[], .forgotten h.wired⟩

theorem wired (h : Course builtins options net s) : net.Wired := by
  obtain ⟨_, hrunning⟩ := h.running
  exact hrunning.wired

/-- A production fires on matches of its body in the facts. -/
theorem fire_sound (h : Course builtins options net s) {id : ProductionId} {i : Instantiation}
    (hfire : .fire id i ∈ s.log ++ net.agenda) :
    ∃ rule, net.rule? id = some rule ∧ (∀ t ∈ i.support, t ∈ net.workingMemory.toList) ∧
      Matches net.builtins rule.body i.support i.binding := by
  obtain ⟨_, hrunning⟩ := h.running
  exact hrunning.account.fire_sound hrunning.wired hfire

/-! ### Runs -/

theorem drain (h : Course builtins options net s) {budget : Nat}
    (hd : drain budget net = some net') :
    net'.agenda = [] ∧ ∃ log, Course builtins options net' { s with log := log } := by
  obtain ⟨log, hcourse, hidle⟩ := drain_induction
    (P := fun other log => Course builtins options other { s with log := log })
    (fun _ _ _ _ hother hagenda => hother.perform hagenda) budget s.log h hd
  exact ⟨hidle, log, hcourse⟩

/-- Running the facts that are owed. -/
theorem foldlM_run {facts : List Triple} (h : Course builtins options net { s with owed := facts })
    (hidle : net.agenda = []) {budget : Nat}
    (hf : facts.foldlM (fun net fact => Network.run budget net (.fact fact)) net = some net') :
    net'.agenda = [] ∧ ∃ log, Course builtins options net' { s with log := log, owed := [] } := by
  induction facts generalizing net s with
  | nil =>
    cases hf
    exact ⟨hidle, s.log, h⟩
  | cons fact rest ih =>
    rw [List.foldlM_cons] at hf
    obtain ⟨next, hr, hrest⟩ := Option.bind_eq_some_iff.mp hf
    obtain ⟨hidle', log, hnext⟩ := (h.move .fact).drain hr
    exact ih (s := { s with log := log }) hnext hidle' hrest

/-- Asserting the truths that are pending. -/
theorem assertTruths {ids : List ProductionId}
    (h : Course builtins options net { s with pending := ids }) (hidle : net.agenda = [])
    (hids : ∀ id ∈ ids, id ∈ net.truths) {budget : Nat}
    (ha : net.assertTruths budget ids = some net') :
    net'.agenda = [] ∧
      ∃ log, Course builtins options net' { s with log := log, pending := [] } := by
  induction ids generalizing net s with
  | nil =>
    cases ha
    exact ⟨hidle, s.log, h⟩
  | cons id rest ih =>
    rw [Network.assertTruths, List.foldlM_cons] at ha
    obtain ⟨next, hr, hrest⟩ := Option.bind_eq_some_iff.mp ha
    obtain ⟨hidle', log, hnext⟩ := (h.move (.truth (hids id (List.mem_cons_self ..)))).drain hr
    have hskeleton : next.skeleton =
      ({ net with agenda := .fire id {} :: net.agenda } : Network).skeleton := skeleton_drain hr
    have htruths : next.truths = net.truths := truths_of_skeleton_eq hskeleton
    refine ih (s := { s with log := log }) hnext hidle' (fun other hother => ?_) hrest
    rw [htruths]
    exact hids other (List.mem_cons_of_mem _ hother)

/-! ### Calls -/

/-- Activating compiled rules. The facts are replayed for new rules only, and only if there are
facts. -/
theorem activate {fed : List Triple} {log : List Activation} {replayed : Bool}
    (h : Course builtins options net { fed, log, replayed }) (hidle : net.agenda = [])
    {kept : List HornRule} {added : List ProductionId} (hc : Compiled net net' kept added)
    {budget : Nat} {final : Network} (ha : net'.activate budget added = some final) :
    final.agenda = [] ∧ ∃ log' replayed',
      Course builtins options final { fed, log := log', replayed := replayed' } ∧
        (net.workingMemory.toList = [] ∨ added = [] → replayed' = replayed) := by
  have hidle' : net'.agenda = [] := hc.grown.agenda.trans hidle
  have hids : ∀ id ∈ added.filter net'.isTruth, id ∈ net'.truths := fun id hid =>
    hc.wired.production.mem_truths.mpr (isTruth_iff.mp (List.mem_filter.mp hid).2)
  have hquiet : ∀ {log' : List Activation}, Course builtins options net'
      { fed, log := log', pending := added.filter net'.isTruth, replayed } →
      net'.assertTruths budget (added.filter net'.isTruth) = some final →
      final.agenda = [] ∧ ∃ log' replayed',
        Course builtins options final { fed, log := log', replayed := replayed' } ∧
          (net.workingMemory.toList = [] ∨ added = [] → replayed' = replayed) := by
    intro log' hcourse hfinal
    obtain ⟨hdone, log'', hend⟩ :=
      assertTruths (s := { fed, log := log', replayed }) hcourse hidle' hids hfinal
    exact ⟨hdone, log'', replayed, hend, fun _ => rfl⟩
  obtain ⟨middle, hfinal, ⟨hreplay, hfacts, hadded⟩ | ⟨rfl, hmemory | htruths⟩⟩ :=
    activate_eq_some ha
  · obtain ⟨hidle'', log', hmiddle⟩ := foldlM_run
      (s := { fed, pending := added.filter net'.isTruth, replayed := true })
      (h.move (.late hidle hc)) hidle' hreplay
    have htruths : middle.truths = net'.truths := by
      obtain ⟨_, hwired⟩ := h.running
      exact truths_of_skeleton_eq (replay_spec hc.wired hidle' (hwired.grounded.of_same hc.grown.grows
        hc.grown.memory hc.grown.inferred hc.grown.skolem) hreplay).1.skeleton
    obtain ⟨hdone, log'', hend⟩ := assertTruths (s := { fed, log := log', replayed := true })
      hmiddle hidle'' (fun id hid => htruths ▸ hids id hid) hfinal
    refine ⟨hdone, log'', true, hend, fun hnone => ?_⟩
    rcases hnone with hnone | hnone
    · exact absurd (hc.grown.memory ▸ hnone) hfacts
    · exact absurd hnone hadded
  · exact hquiet (h.move (.early hidle (hc.grown.memory ▸ hmemory) hc)) hfinal
  · exact hquiet (h.move (.quiet hidle htruths hc)) hfinal

theorem feed {fed : List Triple} {log : List Activation} {replayed : Bool}
    (h : Course builtins options net { fed, log, replayed }) (hidle : net.agenda = []) {budget : Nat}
    {facts : List Triple} {stop : Readings} {result : Except FeedError FeedReport}
    (hf : net.feed budget facts stop = some (net', result)) :
    net'.agenda = [] ∧ ∃ log',
      Course builtins options net' { fed := fed ++ takenFacts facts result, log := log', replayed } := by
  refine feed_induction (P := fun other fed => other.agenda = [] ∧ ∃ log,
    Course builtins options other { fed := fed, log, replayed }) (fun other fed t hother ht => ?_)
    (fun other fed t next hother ht hr => ?_) ⟨hidle, log, h⟩ hf
  · obtain ⟨hidle, log, hcourse⟩ := hother
    exact ⟨hidle, log, hcourse.move (.offer ht)⟩
  · obtain ⟨_, log, hcourse⟩ := hother
    have hpushed := (hcourse.move (.insert ht)).move
      (.fact (s := { fed := fed ++ [t], log, replayed }))
    exact hpushed.drain hr

theorem reset (h : Course builtins options net s) {budget : Nat}
    (hr : net.reset budget = some net') :
    net'.agenda = [] ∧ ∃ log, Course builtins options net' { log } := by
  have hids : ∀ id ∈ net.truths, id ∈ net.forgotten.truths := fun _ hid => hid
  exact assertTruths (s := {}) h.forget rfl hids hr

end Course

/-- **A history has a course.** Unless rules came late, no facts were replayed. -/
theorem History.course {ledger : Ledger} (h : History builtins options net ledger) :
    net.agenda = [] ∧ ∃ log replayed,
      Course builtins options net { fed := ledger.facts, log, replayed } ∧
        (ledger.timely = true → replayed = false) := by
  induction h with
  | new => exact ⟨rfl, [], false, .new, fun _ => rfl⟩
  | addRule _ hcall ih =>
    obtain ⟨hidle, log, replayed, hcourse, htimely⟩ := ih
    obtain ⟨hc, hactivate⟩ := addRule_spec hcourse.wired hcall
    obtain ⟨hdone, log', replayed', hend, hearly⟩ := hcourse.activate hidle hc hactivate
    refine ⟨hdone, log', replayed', hend, fun h => ?_⟩
    obtain ⟨hbefore, hnone⟩ := Ledger.timely_iff.mp h
    exact (hearly hnone).trans (htimely hbefore)
  | addRules _ hcall ih =>
    obtain ⟨hidle, log, replayed, hcourse, htimely⟩ := ih
    obtain ⟨hc, hactivate⟩ := addRules_spec hcourse.wired hcall
    obtain ⟨hdone, log', replayed', hend, hearly⟩ := hcourse.activate hidle hc hactivate
    refine ⟨hdone, log', replayed', hend, fun h => ?_⟩
    obtain ⟨hbefore, hnone⟩ := Ledger.timely_iff.mp h
    exact (hearly hnone).trans (htimely hbefore)
  | feed _ hcall ih =>
    obtain ⟨hidle, log, replayed, hcourse, htimely⟩ := ih
    obtain ⟨hdone, log', hend⟩ := hcourse.feed hidle hcall
    exact ⟨hdone, log', replayed, hend, htimely⟩
  | reset _ hcall ih =>
    obtain ⟨_, log, replayed, hcourse, _⟩ := ih
    obtain ⟨hdone, log', hend⟩ := hcourse.reset hcall
    exact ⟨hdone, log', false, hend, fun _ => rfl⟩
  | setCancellation flag _ ih =>
    obtain ⟨hidle, log, replayed, hcourse, htimely⟩ := ih
    exact ⟨hidle, log, replayed, hcourse.move (.setCancellation flag), htimely⟩

end HornReasoner
