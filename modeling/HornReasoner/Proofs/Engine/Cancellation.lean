import HornReasoner.Engine.Shared
import HornReasoner.Proofs.Network.Cancellation
import HornReasoner.Proofs.Ontology.Supplement

/-! Requests to stop, one call after the other.

A request stands until a call clears it. Feeds and closures do so before they begin, hence
no request made before them stops them. A document of rules is loaded with the request
standing: if it brings facts, its rules are added and its facts are refused
(`Engine.loadRuleset_cancelled`). No other call can be answered that it was cancelled
(`performAll_cancelled_iff`). -/
namespace HornReasoner
open Network (BuildReport FeedReport)

/-- A feed was stopped. -/
def EngineError.isCancelled : EngineError → Bool
  | .network (.cancelled ..) => true
  | _ => false

/-- The set brings facts that can be fed. -/
def Ruleset.bringsFacts (r : Ruleset) : Bool :=
  !r.facts.isEmpty && r.facts.all fun t => !t.hasVariables

theorem Ruleset.bringsFacts_iff {r : Ruleset} : r.bringsFacts = true ↔
    r.facts ≠ [] ∧ ∀ t ∈ r.facts, t.hasVariables = false := by
  simp [bringsFacts]

/-- The document is a rule set that brings facts. -/
def N3.bringsFacts (text : String) : Bool :=
  (N3.parse text).toOption.any Ruleset.bringsFacts

/-- The answer is that a feed was stopped. -/
def cancelled {α : Type} (result : Except EngineError α) : Bool :=
  match result with
  | .error error => error.isCancelled
  | .ok _ => false

@[simp] theorem cancelled_map {α β : Type} (f : α → β) (result : Except EngineError α) :
    cancelled (result.map f) = cancelled result := by
  cases result <;> rfl

namespace Engine
variable {e e' : Engine} {budget : Nat}

/-- A request to stop stands. -/
def stopRequested (e : Engine) : Bool := e.network.cancellation.isCancelled

/-! ### What an engine does while a request stands -/

theorem stopRequested_loadRules {rules : List HornRule} {report : BuildReport}
    (h : e.loadRules budget rules = some (e', report)) : e'.stopRequested = e.stopRequested := by
  obtain ⟨⟨net, added⟩, hadd, heq⟩ := Option.map_eq_some_iff.mp h
  cases heq
  exact congrArg CancellationFlag.isCancelled (Network.cancellation_addRules hadd)

/-- A feed reports that it was stopped exactly if somebody asks for it before one of its facts. -/
theorem feed_spec {facts : List Triple} {stop : Readings} {result : Except EngineError FeedReport}
    (h : e.feed budget facts stop = some (e', result)) : e'.stopRequested = e.stopRequested ∧
      (cancelled result = true ↔
        (∃ k < facts.length, stop k = true) ∧ ∀ t ∈ facts, t.hasVariables = false) := by
  obtain ⟨⟨net, report⟩, hfeed, heq⟩ := Option.map_eq_some_iff.mp h
  cases heq
  refine ⟨congrArg CancellationFlag.isCancelled (Network.cancellation_feed hfeed),
    Iff.trans ?_ (Network.feed_cancelled_iff hfeed)⟩
  rcases report with (_ | _) | _ <;> simp [cancelled, Except.mapError, EngineError.isCancelled]

/-- Whoever reads the flag finds the request if it stands and there is a fact to read it for. -/
theorem exists_reading_iff {facts : List Triple} :
    (∃ k < facts.length, e.network.cancellation.readings k = true) ↔
      e.stopRequested = true ∧ facts ≠ [] := by
  rw [← List.length_pos_iff]
  exact ⟨fun ⟨k, hk, hstop⟩ => ⟨hstop, Nat.zero_lt_of_lt hk⟩, fun ⟨hstop, hpos⟩ => ⟨0, hpos, hstop⟩⟩

/-- **Facts that come with rules are refused while a request stands**, after the rules were
added. -/
theorem loadRuleset_cancelled {r : Ruleset} (hc : e.stopRequested = true)
    (hfacts : r.bringsFacts = true) (budget : Nat) :
    e.loadRuleset budget r = (e.loadRules budget r.rules).map fun loaded =>
      (loaded.1, .error (.network (.cancelled 0 r.facts.length))) := by
  obtain ⟨hne, hfree⟩ := Ruleset.bringsFacts_iff.mp hfacts
  rw [loadRuleset]
  cases hload : e.loadRules budget r.rules with
  | none => rfl
  | some loaded =>
    have hasked : e.network.cancellation.readings 0 = true := hc
    have hfeed : loaded.1.network.feed budget r.facts e.network.cancellation.readings = _ :=
      Network.feed_cancelled hasked hne hfree budget
    simp [hne, feed, hfeed, Except.mapError, Except.map]

theorem loadRuleset_spec {r : Ruleset} {result : Except EngineError BuildReport}
    (h : e.loadRuleset budget r = some (e', result)) : e'.stopRequested = e.stopRequested ∧
      cancelled result = (e.stopRequested && r.bringsFacts) := by
  obtain ⟨⟨loaded, report⟩, hload, hrest⟩ := Option.bind_eq_some_iff.mp h
  have hkept := stopRequested_loadRules hload
  dsimp only at hrest
  split at hrest
  · rename_i hnone
    cases hrest
    refine ⟨hkept, ?_⟩
    simp [cancelled, Ruleset.bringsFacts, hnone]
  · obtain ⟨⟨fed, counted⟩, hfeed, heq⟩ := Option.bind_eq_some_iff.mp hrest
    cases heq
    obtain ⟨hfed, hcancelled⟩ := feed_spec hfeed
    refine ⟨hfed.trans hkept, ?_⟩
    rw [exists_reading_iff, and_assoc, ← Ruleset.bringsFacts_iff, ← Bool.and_eq_true,
      ← Bool.eq_iff_iff] at hcancelled
    rw [cancelled_map, hcancelled]

theorem loadDocument_spec {text : String} {result : Except EngineError BuildReport}
    (h : e.loadDocument budget text = some (e', result)) : e'.stopRequested = e.stopRequested ∧
      cancelled result = (e.stopRequested && N3.bringsFacts text) := by
  unfold loadDocument at h
  unfold N3.bringsFacts
  cases hparse : N3.parse text with
  | ok r =>
    rw [hparse] at h
    exact loadRuleset_spec h
  | error error =>
    rw [hparse] at h
    cases h
    exact ⟨rfl, (Bool.and_false _).symm⟩

theorem loadSupplement_spec {result : Except EngineError BuildReport}
    (h : e.loadSupplement budget = some (e', result)) : e'.stopRequested = e.stopRequested ∧
      cancelled result = false := by
  unfold loadSupplement at h
  split at h
  · cases h
    exact ⟨rfl, rfl⟩
  · split at h
    · cases h
      exact ⟨rfl, rfl⟩
    · obtain ⟨⟨loaded, report⟩, hload, heq⟩ := Option.map_eq_some_iff.mp h
      cases heq
      exact ⟨(stopRequested_loadRules hload :), rfl⟩

section
variable {g : Graph}

theorem stopRequested_loadAxioms {report : BuildReport}
    (h : e.loadAxioms budget g = some (e', report)) : e'.stopRequested = e.stopRequested := by
  unfold loadAxioms at h
  split at h
  · exact (stopRequested_loadRules h).trans rfl
  · cases h
    rfl

theorem loadOntology_spec {result : Except EngineError BuildReport}
    (h : e.loadOntology budget g = some (e', result)) : e'.stopRequested = e.stopRequested ∧
      cancelled result = false := by
  obtain ⟨⟨supplied, supplement⟩, hsupplement, hrest⟩ := Option.bind_eq_some_iff.mp h
  obtain ⟨hkept, hquiet⟩ := loadSupplement_spec hsupplement
  cases supplement with
  | error error =>
    cases hrest
    exact ⟨hkept, hquiet⟩
  | ok supplement =>
    obtain ⟨⟨loaded, axioms⟩, haxioms, heq⟩ := Option.bind_eq_some_iff.mp hrest
    cases heq
    exact ⟨(stopRequested_loadAxioms haxioms).trans hkept, rfl⟩

/-- The triples of an ontology are fed as any batch. -/
theorem feedOntology_spec {stop : Readings} {result : Except EngineError Nat}
    (h : e.feedOntology budget g stop = some (e', result)) : e'.stopRequested = e.stopRequested ∧
      (cancelled result = true → ∃ k < g.toList.length, stop k = true) := by
  unfold feedOntology at h
  split at h
  · obtain ⟨⟨fed, report⟩, hfeed, heq⟩ := Option.map_eq_some_iff.mp h
    cases heq
    obtain ⟨hkept, hcancelled⟩ := feed_spec hfeed
    refine ⟨hkept, fun hstopped => ?_⟩
    rw [cancelled_map] at hstopped
    exact (hcancelled.mp hstopped).1
  · cases h
    exact ⟨rfl, fun hstopped => by cases hstopped⟩

/-- A closure is not stopped unless the request stood before it. -/
theorem computeClosure_spec_of_resumed {result : Except EngineError ClosureReport}
    (hc : e.stopRequested = false) (h : e.computeClosure budget g = some (e', result)) :
    e'.stopRequested = false ∧ cancelled result = false := by
  obtain ⟨⟨loaded, build⟩, hload, hrest⟩ := Option.bind_eq_some_iff.mp h
  obtain ⟨hkept, hquiet⟩ := loadOntology_spec hload
  cases build with
  | error error =>
    cases hrest
    exact ⟨hkept.trans hc, hquiet⟩
  | ok build =>
    obtain ⟨⟨fed, processed⟩, hfeed, heq⟩ := Option.bind_eq_some_iff.mp hrest
    cases heq
    obtain ⟨hfed, hstopped⟩ := feedOntology_spec hfeed
    refine ⟨hfed.trans (hkept.trans hc), ?_⟩
    rw [cancelled_map]
    refine Bool.eq_false_iff.mpr fun hcancelled => ?_
    obtain ⟨_, _, hstop⟩ := hstopped hcancelled
    cases hc.symm.trans hstop

end

theorem stopRequested_reset (h : e.reset budget = some e') : e'.stopRequested = e.stopRequested := by
  obtain ⟨net, hreset, rfl⟩ := Option.map_eq_some_iff.mp h
  exact congrArg CancellationFlag.isCancelled (Network.cancellation_reset hreset)

end Engine

namespace SharedReasoner

/-! ### Calls -/

/-- A call of a handle, with its arguments. -/
inductive Call where
  | cancel
  | loadDocument (text : String)
  | loadOntology (ontology : Graph)
  | feed (facts : List Triple)
  | feedFrom (delivered : Except String (List Triple))
  | computeClosure (graph : Graph)
  | contains (t : Triple)
  | closure
  | stats
  | reset

/-- What a call is answered. -/
inductive Answer where
  | done
  | built (report : BuildReport)
  | fed (report : FeedReport)
  | closed (report : ClosureReport)
  | found (known : Bool)
  | facts (sorted : List Triple)
  | counted (stats : NetworkStats)
  | failed (error : EngineError)

namespace Answer

def of {α : Type} (answer : α → Answer) : Except EngineError α → Answer
  | .ok a => answer a
  | .error error => failed error

/-- The call failed because a feed was stopped. -/
def isCancelled : Answer → Bool
  | failed error => error.isCancelled
  | _ => false

end Answer

namespace Call

def perform (budget : Nat) (r : SharedReasoner) : Call → Option (SharedReasoner × Answer)
  | cancel => some (r.cancel, .done)
  | loadDocument text => (r.loadDocument budget text).map (Prod.map id (.of .built))
  | loadOntology ontology => (r.loadOntology budget ontology).map (Prod.map id (.of .built))
  | feed facts => (r.feed budget facts).map (Prod.map id (.of .fed))
  | feedFrom delivered => (r.feedFrom budget delivered).map (Prod.map id (.of .fed))
  | computeClosure graph => (r.computeClosure budget graph).map (Prod.map id (.of .closed))
  | contains t => some (r, .found (r.contains t))
  | closure => some (r, .facts r.closure)
  | stats => some (r, .counted r.stats)
  | reset => (r.reset budget).map fun r => (r, .done)

/-- Whether a request stands behind the call, if one did or did not before it. -/
def leaves (standing : Bool) : Call → Bool
  | cancel => true
  | feed _ | feedFrom (.ok _) | computeClosure _ => false
  | _ => standing

/-- The call loads facts with the request standing. -/
def loadsFacts : Call → Bool
  | loadDocument text => N3.bringsFacts text
  | _ => false

end Call

variable {r r' : SharedReasoner} {budget : Nat}

/-- A request to stop stands. -/
def stopRequested (r : SharedReasoner) : Bool := r.engine.stopRequested

/-- What the engine does for a call is what the call is answered. -/
theorem exists_of_lift {α : Type} {act : Engine → Option (Engine × Except EngineError α)}
    {answer : α → Answer} (hquiet : ∀ a, (answer a).isCancelled = false) {found : Answer}
    (h : (r.lift act).map (Prod.map id (.of answer)) = some (r', found)) :
    ∃ result, act r.engine = some (r'.engine, result) ∧ found.isCancelled = cancelled result := by
  obtain ⟨⟨lifted, result⟩, hlift, heq⟩ := Option.map_eq_some_iff.mp h
  cases heq
  obtain ⟨⟨engine, result⟩, hact, heq⟩ := Option.map_eq_some_iff.mp hlift
  cases heq
  refine ⟨result, hact, ?_⟩
  cases result with
  | ok a => exact hquiet a
  | error error => rfl

/-- A feed is not stopped by a request made before it. -/
theorem perform_feed {facts : List Triple} {answer : Answer}
    (h : (Call.feed facts).perform budget r = some (r', answer)) :
    r'.stopRequested = false ∧ answer.isCancelled = false := by
  obtain ⟨result, hfeed, hanswer⟩ := exists_of_lift (fun _ => rfl) h
  obtain ⟨hkept, hcancelled⟩ := Engine.feed_spec hfeed
  refine ⟨hkept, ?_⟩
  simpa [hanswer] using hcancelled

/-- **One call**: what it leaves of the request, and when it is stopped. -/
theorem perform_spec {call : Call} {answer : Answer}
    (h : call.perform budget r = some (r', answer)) :
    r'.stopRequested = call.leaves r.stopRequested ∧
      answer.isCancelled = (r.stopRequested && call.loadsFacts) := by
  cases call with
  | cancel | contains | closure | stats =>
    cases h
    exact ⟨rfl, (Bool.and_false _).symm⟩
  | loadDocument text =>
    obtain ⟨result, hload, hanswer⟩ := exists_of_lift (fun _ => rfl) h
    obtain ⟨hkept, hcancelled⟩ := Engine.loadDocument_spec hload
    exact ⟨hkept, hanswer.trans hcancelled⟩
  | loadOntology ontology =>
    obtain ⟨result, hload, hanswer⟩ := exists_of_lift (fun _ => rfl) h
    obtain ⟨hkept, hcancelled⟩ := Engine.loadOntology_spec hload
    exact ⟨hkept, (hanswer.trans hcancelled).trans (Bool.and_false _).symm⟩
  | feed facts =>
    obtain ⟨hcleared, hquiet⟩ := perform_feed h
    exact ⟨hcleared, hquiet.trans (Bool.and_false _).symm⟩
  | feedFrom delivered =>
    cases delivered with
    | ok facts =>
      obtain ⟨hcleared, hquiet⟩ :=
        perform_feed (show (Call.feed facts).perform budget r = some (r', answer) from h)
      exact ⟨hcleared, hquiet.trans (Bool.and_false _).symm⟩
    | error message =>
      cases h
      exact ⟨rfl, (Bool.and_false _).symm⟩
  | computeClosure graph =>
    obtain ⟨result, hclosure, hanswer⟩ := exists_of_lift (fun _ => rfl) h
    obtain ⟨hcleared, hquiet⟩ := Engine.computeClosure_spec_of_resumed rfl hclosure
    exact ⟨hcleared, (hanswer.trans hquiet).trans (Bool.and_false _).symm⟩
  | reset =>
    obtain ⟨kept, hreset, heq⟩ := Option.map_eq_some_iff.mp h
    cases heq
    obtain ⟨engine, hengine, rfl⟩ := Option.map_eq_some_iff.mp hreset
    exact ⟨Engine.stopRequested_reset hengine, (Bool.and_false _).symm⟩

/-! ### Calls in turn -/

/-- Calls made one after the other, with their answers. -/
def performAll (budget : Nat) (r : SharedReasoner) :
    List Call → Option (SharedReasoner × List Answer)
  | [] => some (r, [])
  | call :: rest => do
    let (r, answer) ← call.perform budget r
    let (r, answers) ← performAll budget r rest
    return (r, answer :: answers)

/-- Whether a request stands behind the calls. -/
def stands (standing : Bool) (calls : List Call) : Bool := calls.foldl Call.leaves standing

/-- Which of the calls load facts while a request stands. -/
def stopped (standing : Bool) : List Call → List Bool
  | [] => []
  | call :: rest => (standing && call.loadsFacts) :: stopped (call.leaves standing) rest

@[simp] theorem length_stopped (standing : Bool) (calls : List Call) :
    (stopped standing calls).length = calls.length := by
  induction calls generalizing standing with
  | nil => rfl
  | cons call rest ih => simp [stopped, ih]

theorem stopped_append (standing : Bool) (calls more : List Call) :
    stopped standing (calls ++ more) =
      stopped standing calls ++ stopped (stands standing calls) more := by
  induction calls generalizing standing with
  | nil => rfl
  | cons call rest ih =>
    rw [List.cons_append, stopped, ih, stopped, List.cons_append]
    rfl

/-- The answers in turn. -/
theorem performAll_spec {calls : List Call} {answers : List Answer}
    (h : r.performAll budget calls = some (r', answers)) :
    r'.stopRequested = stands r.stopRequested calls ∧
      answers.map Answer.isCancelled = stopped r.stopRequested calls := by
  induction calls generalizing r answers with
  | nil =>
    cases h
    exact ⟨rfl, rfl⟩
  | cons call rest ih =>
    obtain ⟨⟨next, answer⟩, hcall, hrest⟩ := Option.bind_eq_some_iff.mp h
    obtain ⟨⟨final, others⟩, hothers, heq⟩ := Option.bind_eq_some_iff.mp hrest
    cases heq
    obtain ⟨hleaves, hanswer⟩ := perform_spec hcall
    obtain ⟨hstands, hstopped⟩ := ih hothers
    rw [hleaves] at hstands hstopped
    exact ⟨hstands, congrArg₂ List.cons hanswer hstopped⟩

/-- **When calls are stopped.** A call is answered that it was cancelled exactly if it loads a
document that brings facts while a request stands; so none is if no such document is loaded
between a request and the next feed or closure. -/
theorem performAll_cancelled_iff {calls : List Call} {answers : List Answer}
    (h : r.performAll budget calls = some (r', answers)) :
    answers.length = calls.length ∧
    (∀ before call after, calls = before ++ call :: after → ∃ answer,
      answers[before.length]? = some answer ∧ (answer.isCancelled = true ↔
        stands r.stopRequested before = true ∧ call.loadsFacts = true)) ∧
    ((∀ before call after, calls = before ++ call :: after →
        stands r.stopRequested before = true → call.loadsFacts = false) →
      ∀ answer ∈ answers, answer.isCancelled = false) := by
  obtain ⟨-, hstopped⟩ := performAll_spec h
  have hlength : answers.length = calls.length := by
    simpa using congrArg List.length hstopped
  have hat : ∀ before call after, calls = before ++ call :: after → ∃ answer,
      answers[before.length]? = some answer ∧ (answer.isCancelled = true ↔
        stands r.stopRequested before = true ∧ call.loadsFacts = true) := by
    rintro before call after rfl
    have hfound := congrArg (·[before.length]?) hstopped
    rw [stopped_append, stopped] at hfound
    simp only [List.getElem?_map, List.getElem?_append_right, length_stopped, Nat.le_refl,
      Nat.sub_self, List.getElem?_cons_zero, Option.map_eq_some_iff] at hfound
    obtain ⟨answer, hanswer, heq⟩ := hfound
    exact ⟨answer, hanswer, by rw [heq, Bool.and_eq_true]⟩
  refine ⟨hlength, hat, fun hnever answer hanswer => ?_⟩
  obtain ⟨n, hn, rfl⟩ := List.getElem_of_mem hanswer
  have hsplit : calls = calls.take n ++ calls[n] :: calls.drop (n + 1) := by simp
  obtain ⟨found, hfound, hiff⟩ := hat _ _ _ hsplit
  rw [List.length_take_of_le (by omega), List.getElem?_eq_getElem hn] at hfound
  cases hfound
  refine Bool.eq_false_iff.mpr fun hc => ?_
  obtain ⟨hstands, hloads⟩ := hiff.mp hc
  rw [hnever _ _ _ hsplit hstands] at hloads
  cases hloads

/-- A feed that a request was made before. -/
def requestBeforeFeed : List Call :=
  [.cancel, .feed [⟨.iri "a", .iri "p", .iri "b"⟩], .closure]

/-- It is not stopped. -/
theorem performAll_cancelled_iff_of_feed : ∃ r' answers,
    performAll 1 new requestBeforeFeed = some (r', answers) ∧
      ∀ answer ∈ answers, answer.isCancelled = false := by
  obtain ⟨⟨r', answers⟩, h⟩ := Option.isSome_iff_exists.mp
    (show (performAll 1 new requestBeforeFeed).isSome by decide +kernel)
  obtain ⟨-, -, hquiet⟩ := performAll_cancelled_iff h
  refine ⟨r', answers, h, hquiet fun before call after hcalls _ => ?_⟩
  have hnone : ∀ call ∈ requestBeforeFeed, call.loadsFacts = false := by
    simp [requestBeforeFeed, Call.loadsFacts]
  exact hnone call (hcalls ▸ List.mem_append_cons_self)

/-- A document of one fact. -/
def factDocument : String := "<a> <p> <b> ."

/-- **A request made before a document is loaded stops its facts.** -/
theorem stale_request_honoured : performAll 0 new [.cancel, .loadDocument factDocument] =
    some (new.cancel, [.done, .failed (.network (.cancelled 0 1))]) := by
  obtain ⟨read, hparse, hread⟩ := N3.parse_of_chars
    (P := fun r => r.rules.isEmpty && r.facts == [⟨.iri "a", .iri "p", .iri "b"⟩])
    (show factDocument.toList = _ from String.toList_ofList) (by decide +kernel)
  simp only [Bool.and_eq_true, List.isEmpty_iff, beq_iff_eq] at hread
  obtain ⟨hrules, hfacts⟩ := hread
  have hbrings : read.bringsFacts = true := by
    rw [Ruleset.bringsFacts, hfacts]
    decide
  have hload := Engine.loadRuleset_cancelled (e := new.cancel.engine) rfl hbrings 0
  rw [hrules, hfacts] at hload
  have hcall : new.cancel.loadDocument 0 factDocument =
      some (new.cancel, .error (.network (.cancelled 0 1))) := by
    rw [loadDocument, lift, Engine.loadDocument, hparse]
    dsimp only
    rw [hload]
    rfl
  simp [performAll, Call.perform, hcall, Answer.of]

end SharedReasoner

end HornReasoner
