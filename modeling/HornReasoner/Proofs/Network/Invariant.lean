import HornReasoner.Proofs.Network.Course

/-! Invariants of calls.

A property that every single activation keeps at a moment of a course, and that is no matter of
the agenda and the memories, is kept by whole calls, and so it holds after every history
(`Invariant.of_history`). -/
namespace HornReasoner
open Network

/-- What a new network has and no step of a call takes away. -/
structure Invariant (builtins : Registry) (options : NetworkOptions) (Q : Network → Prop) :
    Prop where
  new (drawn : String) : Q (.new builtins options drawn)
  compile {net net' : Network} {kept : List HornRule} {added : List ProductionId} :
    Compiled net net' kept added → net'.contents = net.contents → Q net → Q net'
  perform {net : Network} {s : Stage} {a : Activation} {rest : List Activation} :
    Course builtins options net s → net.agenda = a :: rest → Q net →
      Q ({ net with agenda := rest }.perform a)
  push {net : Network} (a : Activation) : Q net → Q { net with agenda := a :: net.agenda }
  clear {net : Network} : Q net → Q { net with betas := net.betas.map BetaNode.clear }
  insert {net : Network} {t : Triple} : t.hasVariables = false → Q net →
    Q { net with workingMemory := net.workingMemory.insert t }
  forget {net : Network} : Q net → Q net.forgotten
  setCancellation {net : Network} (flag : CancellationFlag) : Q net → Q (net.setCancellation flag)

namespace Invariant
variable {builtins : Registry} {options : NetworkOptions} {Q : Network → Prop}
  {net net' : Network} {s : Stage} {budget : Nat}

/-! ### Runs -/

/-- What one run does to what is left to run, several do one after the other. -/
theorem runs_induction {α : Type} {I : List α → Network → Prop} {f : α → Activation}
    (hrun : ∀ {item rest net net'}, I (item :: rest) net →
      Network.run budget net (f item) = some net' → I rest net')
    {items : List α} (h : I items net)
    (hf : items.foldlM (fun net item => Network.run budget net (f item)) net = some net') :
    I [] net' := by
  induction items generalizing net with
  | nil =>
    cases hf
    exact h
  | cons item rest ih =>
    rw [List.foldlM_cons] at hf
    obtain ⟨next, hnext, hrest⟩ := Option.bind_eq_some_iff.mp hf
    exact ih (hrun h hnext) hrest

theorem drain (hQ : Invariant builtins options Q) (h : Course builtins options net s) (hq : Q net)
    (hd : Network.drain budget net = some net') :
    (∃ log, Course builtins options net' { s with log := log }) ∧ Q net' := by
  obtain ⟨log, ⟨hcourse, hfinal⟩, _⟩ := drain_induction
    (P := fun other log => Course builtins options other { s with log := log } ∧ Q other)
    (fun _ _ _ _ hother hagenda =>
      ⟨hother.1.perform hagenda, hQ.perform hother.1 hagenda hother.2⟩)
    budget s.log ⟨h, hq⟩ hd
  exact ⟨⟨log, hcourse⟩, hfinal⟩

/-- Running the facts that are owed. -/
theorem foldlM_run (hQ : Invariant builtins options Q) {facts : List Triple}
    (h : Course builtins options net { s with owed := facts }) (hq : Q net)
    (hf : facts.foldlM (fun net fact => Network.run budget net (.fact fact)) net = some net') :
    (∃ log, Course builtins options net' { s with log := log, owed := [] }) ∧ Q net' := by
  refine runs_induction (I := fun rest other =>
    (∃ log, Course builtins options other { s with log := log, owed := rest }) ∧ Q other)
    (fun ⟨⟨log, hcourse⟩, hother⟩ hr => ?_) ⟨⟨s.log, h⟩, hq⟩ hf
  exact hQ.drain (hcourse.move (.fact (s := { s with log := log }))) (hQ.push _ hother) hr

/-- Asserting the truths that are pending. -/
theorem assertTruths (hQ : Invariant builtins options Q) {ids : List ProductionId}
    (h : Course builtins options net { s with pending := ids }) (hids : ∀ id ∈ ids, id ∈ net.truths)
    (hq : Q net) (ha : net.assertTruths budget ids = some net') : Q net' := by
  refine (runs_induction (I := fun rest other =>
    (∃ log, Course builtins options other { s with log := log, pending := rest }) ∧
      (∀ id ∈ rest, id ∈ other.truths) ∧ Q other)
    (fun {id _ other _} ⟨⟨log, hcourse⟩, hids, hother⟩ hr => ?_) ⟨⟨s.log, h⟩, hids, hq⟩ ha).2.2
  obtain ⟨hid, hids⟩ := List.forall_mem_cons.mp hids
  have hpushed := hcourse.move (.truth (s := { s with log := log }) hid)
  obtain ⟨hnext, hfinal⟩ := hQ.drain hpushed (hQ.push _ hother) hr
  have htruths := truths_of_skeleton_eq ((skeleton_drain hr).trans (skeleton_agenda other _))
  exact ⟨hnext, fun id hid => htruths ▸ hids id hid, hfinal⟩

/-! ### Calls -/

theorem activate (hQ : Invariant builtins options Q) {fed : List Triple} {log : List Activation}
    {replayed : Bool} (h : Course builtins options net { fed, log, replayed })
    (hidle : net.agenda = []) {kept : List HornRule} {added : List ProductionId}
    (hc : Compiled net net' kept added) (hq : Q net') {final : Network}
    (ha : net'.activate budget added = some final) : Q final := by
  have hids : ∀ id ∈ added.filter net'.isTruth, id ∈ net'.truths := fun id hid =>
    hc.wired.production.mem_truths.mpr (isTruth_iff.mp (List.mem_filter.mp hid).2)
  obtain ⟨middle, hfinal, ⟨hreplay, -, -⟩ | ⟨rfl, hmemory | htruths⟩⟩ := activate_eq_some ha
  · obtain ⟨⟨log', hmiddle⟩, hq⟩ := hQ.foldlM_run
      (s := { fed, pending := added.filter net'.isTruth, replayed := true })
      (h.move (.late hidle hc)) (hQ.clear hq) hreplay
    have hskeleton : middle.skeleton = net'.skeleton :=
      (runs_keep (f := .fact) skeleton_run hreplay).trans net'.skeleton_cleared
    have htruths := truths_of_skeleton_eq hskeleton
    exact hQ.assertTruths (s := { fed, log := log', replayed := true }) hmiddle
      (fun id hid => htruths ▸ hids id hid) hq hfinal
  · exact hQ.assertTruths (s := { fed, replayed })
      (h.move (.early hidle (hc.grown.memory ▸ hmemory) hc)) hids hq hfinal
  · exact hQ.assertTruths (s := { fed, log, replayed })
      (h.move (.quiet hidle htruths hc)) hids hq hfinal

theorem feed (hQ : Invariant builtins options Q) {fed : List Triple} {log : List Activation}
    {replayed : Bool} (h : Course builtins options net { fed, log, replayed }) (hq : Q net)
    {facts : List Triple} {stop : Readings} {result : Except FeedError FeedReport}
    (hf : net.feed budget facts stop = some (net', result)) : Q net' := by
  refine (@feed_induction net net' budget facts stop (fun other taken =>
    (∃ log, Course builtins options other { fed := fed ++ taken, log, replayed }) ∧
      ((∀ t ∈ taken, t.hasVariables = false) → Q other)) (fun other taken t hother ht => ?_)
    (fun other taken t next hother ht hr => ?_) [] result
    ⟨⟨log, (List.append_nil fed).symm ▸ h⟩, fun _ => hq⟩ hf).2 (feeds_takenFacts hf).1
  · obtain ⟨⟨log, hcourse⟩, hother⟩ := hother
    rw [← List.append_assoc]
    exact ⟨⟨log, hcourse.move (.offer ht)⟩, fun hground => hother fun u hu =>
      hground u (List.mem_append_left _ hu)⟩
  · obtain ⟨⟨log, hcourse⟩, hother⟩ := hother
    rw [← List.append_assoc]
    have hpushed := (hcourse.move (.insert ht)).move
      (.fact (s := { fed := fed ++ taken ++ [t], log, replayed }))
    obtain ⟨_, log', hnext⟩ := hpushed.drain hr
    refine ⟨⟨log', hnext⟩, fun hground => ?_⟩
    obtain ⟨hground, hnew⟩ := List.forall_mem_append.mp hground
    have hinserted := hQ.insert (hnew t (List.mem_singleton_self t)) (hother hground)
    exact (hQ.drain hpushed (hQ.push _ hinserted) hr).2

theorem reset (hQ : Invariant builtins options Q) (h : Course builtins options net s) (hq : Q net)
    (hr : net.reset budget = some net') : Q net' := by
  have hids : ∀ id ∈ net.truths, id ∈ net.forgotten.truths := fun _ hid => hid
  exact hQ.assertTruths (s := {}) h.forget hids (hQ.forget hq) hr

/-- **What no step of a call takes away is there after every history.** -/
theorem of_history (hQ : Invariant builtins options Q) {ledger : Ledger}
    (h : History builtins options net ledger) : Q net := by
  induction h with
  | new => exact hQ.new _
  | @addRule net _ _ _ rule _ hbefore hcall ih =>
    obtain ⟨hidle, log, replayed, hcourse, _⟩ := hbefore.course
    obtain ⟨hc, hactivate⟩ := addRule_spec hcourse.wired hcall
    exact hQ.activate hcourse hidle hc (hQ.compile hc (contents_compile net rule) ih) hactivate
  | @addRules net _ _ _ rules _ hbefore hcall ih =>
    obtain ⟨hidle, log, replayed, hcourse, _⟩ := hbefore.course
    obtain ⟨hc, hactivate⟩ := addRules_spec hcourse.wired hcall
    exact hQ.activate hcourse hidle hc (hQ.compile hc (contents_compileAll net {} rules) ih)
      hactivate
  | feed hbefore hcall ih =>
    obtain ⟨hidle, log, replayed, hcourse, _⟩ := hbefore.course
    exact hQ.feed hcourse ih hcall
  | reset hbefore hcall ih =>
    obtain ⟨_, log, replayed, hcourse, _⟩ := hbefore.course
    exact hQ.reset hcourse ih hcall
  | setCancellation flag _ ih => exact hQ.setCancellation flag ih

end Invariant

end HornReasoner
