import HornReasoner.Proofs.Engine.Cancellation
import HornReasoner.Proofs.Json.RoundTrip
import HornReasoner.Proofs.Network.Refusal
import HornReasoner.Proofs.Network.Stores

/-! Rules that come with facts.

The rules of a set are added before its facts are looked at. A set whose facts are refused
therefore leaves its rules behind: the engine is the one that the rules alone give, with the facts
that were fed before a request to stop (`Engine.loadRuleset_error_iff`). Adding rules asserts no
fact (`assertedFacts_addRules`), and nothing at all remains of a set of which no rule is new and no
fact was fed. -/
namespace HornReasoner
open Network (BuildReport FeedReport)

namespace Engine
variable {e e' : Engine} {budget : Nat} {facts : List Triple} {stop : Readings}
  {error : EngineError}

/-! ### Facts that are refused -/

/-- The engine does not take the facts, and goes on as `e'`. -/
inductive Refuses (budget : Nat) (e : Engine) (facts : List Triple) (stop : Readings) :
    Engine → EngineError → Prop where
  /-- One of them has a variable. -/
  | nonGround {bad : Triple} : facts.find? Triple.hasVariables = some bad →
      Refuses budget e facts stop e (.network (.nonGroundFact bad))
  /-- Somebody asks to stop, and only the facts before are fed. -/
  | cancelled {e' : Engine} {k : Nat} {report : FeedReport} :
      (∀ t ∈ facts, t.hasVariables = false) → k < facts.length → stop.StopAt k →
      e.feed budget (facts.take k) (fun _ => false) = some (e', .ok report) →
      Refuses budget e facts stop e' (.network (.cancelled k facts.length))

/-- An engine feeds its network and nothing else. -/
theorem feed_ok_iff {report : FeedReport} :
    e.feed budget facts stop = some (e', .ok report) ↔
      e.network.feed budget facts stop = some (e'.network, .ok report) ∧
        e' = { e with network := e'.network } := by
  rw [feed, Option.map_eq_some_iff]
  constructor
  · rintro ⟨⟨net, result⟩, hfeed, heq⟩
    cases result with
    | ok counted =>
      cases heq
      exact ⟨hfeed, rfl⟩
    | error fault => cases heq
  · rintro ⟨hfeed, heq⟩
    exact ⟨_, hfeed, by rw [heq]; rfl⟩

theorem feed_error_iff :
    e.feed budget facts stop = some (e', .error error) ↔ e.Refuses budget facts stop e' error := by
  constructor
  · intro h
    obtain ⟨⟨net, result⟩, hfeed, heq⟩ := Option.map_eq_some_iff.mp h
    cases result with
    | ok report => cases heq
    | error fault =>
      cases heq
      rcases Network.feed_eq_error_iff.mp hfeed with ⟨bad, hbad, rfl, rfl⟩ | hstopped
      · exact .nonGround hbad
      · obtain ⟨hground, k, hk, hstop, rfl, report, hfed⟩ := hstopped
        exact .cancelled hground hk hstop (feed_ok_iff.mpr ⟨hfed, rfl⟩)
  · intro h
    cases h with
    | nonGround hbad =>
      rw [feed, Network.feed_eq_error_iff.mpr (.inl ⟨_, hbad, rfl, rfl⟩)]
      rfl
    | cancelled hground hk hstop hfed =>
      obtain ⟨hfed, heq⟩ := feed_ok_iff.mp hfed
      rw [feed, Network.feed_eq_error_iff.mpr (.inr ⟨hground, _, hk, hstop, rfl, _, hfed⟩), heq]
      rfl

namespace Refuses

theorem facts_ne_nil (h : e.Refuses budget facts stop e' error) : facts ≠ [] := by
  rintro rfl
  cases h with
  | nonGround hbad => cases hbad
  | cancelled _ hk => exact Nat.not_lt_zero _ hk

/-- Where the request stands before the first fact, nothing is fed. -/
theorem eq_of_asked (h : e.Refuses budget facts stop e' error) (hasked : stop 0 = true) :
    e' = e := by
  cases h with
  | nonGround _ => rfl
  | @cancelled _ k _ _ _ hstop hfed =>
    obtain rfl : k = 0 := hstop.unique ⟨hasked, fun j hj => absurd hj (Nat.not_lt_zero j)⟩
    cases hfed
    rfl

end Refuses

/-! ### Rules and facts -/

/-- What loading rules does to an engine. -/
theorem loadRules_spec {rules : List HornRule} {report : BuildReport}
    (h : e.loadRules budget rules = some (e', report)) :
    e.network.addRules budget rules = some (e'.network, report) ∧
      e' = { e with network := e'.network, diagnostics := e.diagnostics ++ report.dropped } := by
  obtain ⟨⟨net, added⟩, hadd, heq⟩ := Option.map_eq_some_iff.mp h
  cases heq
  exact ⟨hadd, rfl⟩

/-- **A set is refused after its rules were added**, and because of its facts only. -/
theorem loadRuleset_error_iff {r : Ruleset} :
    e.loadRuleset budget r stop = some (e', .error error) ↔
      ∃ loaded report, e.loadRules budget r.rules = some (loaded, report) ∧
        loaded.Refuses budget r.facts stop e' error := by
  rw [loadRuleset]
  cases hload : e.loadRules budget r.rules with
  | none => simp
  | some found =>
    obtain ⟨loaded, report⟩ := found
    have hrules : (∃ other counted, some (loaded, report) = some (other, counted) ∧
        other.Refuses budget r.facts stop e' error) ↔
          loaded.Refuses budget r.facts stop e' error := by
      refine ⟨fun h => ?_, fun h => ⟨_, _, rfl, h⟩⟩
      obtain ⟨_, _, ⟨⟩, hrefuses⟩ := h
      exact hrefuses
    rw [hrules]
    by_cases hfacts : r.facts = []
    · exact iff_of_false (by simp [hfacts]) fun h => h.facts_ne_nil hfacts
    · simp only [Option.bind_eq_bind, Option.bind_some, List.isEmpty_iff, hfacts, if_false]
      rw [← feed_error_iff, Option.bind_eq_some_iff]
      constructor
      · rintro ⟨⟨fed, counted⟩, hfeed, heq⟩
        cases counted with
        | ok counted => cases heq
        | error fault =>
          cases heq
          exact hfeed
      · exact fun h => ⟨_, h, rfl⟩

/-- A document is refused if it cannot be read, and then nothing is loaded, or if somebody asks to
stop, and then its rules are, and the facts before. -/
theorem loadDocument_error_iff {text : String} :
    e.loadDocument budget text stop = some (e', .error error) ↔
      (∃ fault, N3.parse text = .error fault ∧ error = .rules fault ∧ e' = e) ∨
      ∃ r loaded report, N3.parse text = .ok r ∧
        e.loadRules budget r.rules = some (loaded, report) ∧
        ∃ k < r.facts.length, stop.StopAt k ∧ error = .network (.cancelled k r.facts.length) ∧
          ∃ fed, loaded.feed budget (r.facts.take k) (fun _ => false) = some (e', .ok fed) := by
  unfold loadDocument
  cases hparse : N3.parse text with
  | error fault =>
    constructor
    · rintro ⟨⟩
      exact .inl ⟨fault, rfl, rfl, rfl⟩
    · rintro (⟨_, ⟨⟩, rfl, rfl⟩ | ⟨_, _, _, ⟨⟩, _⟩)
      rfl
  | ok r =>
    have hground := (N3.built_and_ground_of_parseWith hparse).2
    dsimp only
    rw [loadRuleset_error_iff]
    constructor
    · rintro ⟨loaded, report, hload, hrefuses⟩
      cases hrefuses with
      | nonGround hbad => cases (Network.find?_eq_none_iff.mpr hground).symm.trans hbad
      | cancelled _ hk hstop hfed =>
        exact .inr ⟨r, loaded, report, rfl, hload, _, hk, hstop, rfl, _, hfed⟩
    · rintro (⟨_, ⟨⟩, _⟩ | ⟨_, loaded, report, ⟨⟩, hload, k, hk, hstop, rfl, _, hfed⟩)
      exact ⟨loaded, report, hload, .cancelled hground hk hstop hfed⟩

/-- **Rules are loaded before facts.** A set is refused exactly if its facts are, and then the
engine is the one that its rules alone give, with the facts fed before the request to stop if there
was one. Rules assert no fact; those that are dropped are remembered, and if none is added the
network is as before. -/
theorem refused_sets (budget : Nat) (e : Engine) (stop : Readings) :
    (∀ r e' error, e.loadRuleset budget r stop = some (e', .error error) ↔
      ∃ loaded report, e.loadRules budget r.rules = some (loaded, report) ∧
        loaded.Refuses budget r.facts stop e' error) ∧
    (∀ text e' error, e.loadDocument budget text stop = some (e', .error error) ↔
      (∃ fault, N3.parse text = .error fault ∧ error = .rules fault ∧ e' = e) ∨
      ∃ r loaded report, N3.parse text = .ok r ∧
        e.loadRules budget r.rules = some (loaded, report) ∧
        ∃ k < r.facts.length, stop.StopAt k ∧ error = .network (.cancelled k r.facts.length) ∧
          ∃ fed, loaded.feed budget (r.facts.take k) (fun _ => false) = some (e', .ok fed)) ∧
    (∀ (loaded : Engine) facts e' error, loaded.Refuses budget facts stop e' error → stop 0 = true →
      e' = loaded) ∧
    ∀ rules e' report, e.loadRules budget rules = some (e', report) →
      e'.network.assertedFacts = e.network.assertedFacts ∧
      e' = { e with network := e'.network, diagnostics := e.diagnostics ++ report.dropped } ∧
      (report.added = [] → e'.network = e.network) := by
  refine ⟨fun _ _ _ => loadRuleset_error_iff, fun _ _ _ => loadDocument_error_iff,
    fun _ _ _ _ => Refuses.eq_of_asked, ?_⟩
  intro rules e' report h
  obtain ⟨hadd, heq⟩ := loadRules_spec h
  exact ⟨Network.assertedFacts_addRules hadd, heq, Network.addRules_refused hadd⟩

/-- A rule that can be added and one that cannot, with a fact. -/
def copying : Ruleset where
  rules :=
    [⟨"copy", [⟨.var ⟨"x"⟩, .iri "p", .var ⟨"y"⟩⟩], [⟨.var ⟨"x"⟩, .iri "q", .var ⟨"y"⟩⟩], []⟩,
      ⟨"void", [⟨.var ⟨"x"⟩, .iri "p", .var ⟨"y"⟩⟩], [], []⟩]
  facts := [⟨.iri "a", .iri "p", .iri "b"⟩]

/-- A new engine that is asked to stop. -/
def stopping : Engine := SharedReasoner.new.cancel.engine

/-- The request refuses the fact, and nothing else: the engine has a rule and a diagnostic
more. -/
theorem rule_of_refused_set : ∃ e',
    stopping.loadRuleset 0 copying = some (e', .error (.network (.cancelled 0 1))) ∧
    stopping.stats.rules = 0 ∧ e'.stats.rules = 1 ∧
    stopping.diagnostics = [] ∧ e'.diagnostics.length = 1 := by
  have hrun : (stopping.loadRules 0 copying.rules).any fun out =>
      out.1.stats.rules == 1 && out.1.diagnostics.length == 1 := by decide +kernel
  obtain ⟨⟨e', report⟩, hload, hfound⟩ := (Option.any_eq_true ..).mp hrun
  simp only [Bool.and_eq_true, beq_iff_eq] at hfound
  have hstop : stopping.network.cancellation.readings.StopAt 0 :=
    ⟨rfl, fun j hj => absurd hj (Nat.not_lt_zero j)⟩
  have hrefuses : e'.Refuses 0 copying.facts stopping.network.cancellation.readings e'
      (.network (.cancelled 0 1)) :=
    .cancelled (by decide) Nat.zero_lt_one hstop (feed_ok_iff.mpr ⟨rfl, rfl⟩)
  exact ⟨e', loadRuleset_error_iff.mpr ⟨e', report, hload, hrefuses⟩, rfl, hfound.1, rfl, hfound.2⟩

/-- A set of two facts, of which the second is refused: what is left is the engine with the rules
and the first fact, copied. -/
theorem refused_sets_of_copying : ∃ loaded report e',
    new.loadRules 9 copying.rules = some (loaded, report) ∧
    loaded.network.assertedFacts = new.network.assertedFacts ∧
    new.loadRuleset 9 { copying with facts := chain } (fun k => k == 1) =
      some (e', .error (.network (.cancelled 1 2))) ∧
    e'.closure.toList = [⟨.iri "a", .iri "p", .iri "b"⟩, ⟨.iri "a", .iri "q", .iri "b"⟩] := by
  obtain ⟨hsets, -, -, hrules⟩ := refused_sets 9 new fun k => k == 1
  have hrun : (new.loadRules 9 copying.rules).any fun loaded =>
      (loaded.1.feed 9 (chain.take 1) fun _ => false).any fun fed => fed.2.isOk &&
        fed.1.closure.toList ==
          [⟨.iri "a", .iri "p", .iri "b"⟩, ⟨.iri "a", .iri "q", .iri "b"⟩] := by decide +kernel
  obtain ⟨⟨loaded, report⟩, hload, hfed⟩ := (Option.any_eq_true ..).mp hrun
  obtain ⟨⟨e', result⟩, hfed, hfound⟩ := (Option.any_eq_true ..).mp hfed
  simp only [Bool.and_eq_true, beq_iff_eq] at hfound
  cases result with
  | error fault => cases hfound.1
  | ok counted =>
    exact ⟨loaded, report, e', hload, (hrules _ _ _ hload).1, (hsets ..).mpr ⟨loaded, report, hload,
      .cancelled (by decide) (by decide) ⟨rfl, by decide⟩ hfed⟩, hfound.2⟩

end Engine

end HornReasoner
