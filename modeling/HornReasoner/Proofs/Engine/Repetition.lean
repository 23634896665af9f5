import HornReasoner.Proofs.Engine.Cancellation
import HornReasoner.Proofs.Network.Repetition

/-! A closure that is computed again.

After a closure was computed the supplement is loaded, the rules of the ontology are decided
and its triples are known, whatever the engine was before. So the same closure again finds
everything done: it leaves the network as it is (`Engine.computeClosure_again`). -/
namespace HornReasoner.Engine

open Network

variable {e e' : Engine} {budget : Nat} {g : Graph}

/-- `e'` has the options and the supplement of `e`, and what `e` decided. -/
structure Follows (e e' : Engine) : Prop where
  options : e'.options = e.options
  supplementLoaded : e'.supplementLoaded = e.supplementLoaded
  settles : Settles e.network e'.network

/-! ### What the steps of a closure leave -/

theorem loadSupplement_ok {report : BuildReport}
    (h : e.loadSupplement budget = some (e', .ok report)) :
    (!e'.options.addSupplement || e'.supplementLoaded) = true := by
  unfold loadSupplement at h
  split at h
  · rename_i hloaded
    cases h
    exact hloaded
  · split at h
    · cases h
    · obtain ⟨loaded, _, heq⟩ := Option.map_eq_some_iff.mp h
      cases heq
      exact Bool.or_true _

theorem loadRules_ok {rules : List HornRule} {report : BuildReport}
    (h : e.loadRules budget rules = some (e', report)) :
    Follows e e' ∧ ∀ rule ∈ rules, e'.network.Decided rule := by
  obtain ⟨⟨net, added⟩, hadd, heq⟩ := Option.map_eq_some_iff.mp h
  cases heq
  obtain ⟨hsettles, hall⟩ := addRules_decided hadd
  exact ⟨⟨rfl, rfl, hsettles⟩, hall⟩

theorem loadAxioms_ok {report : BuildReport} (h : e.loadAxioms budget g = some (e', report)) :
    Follows e e' ∧ (e.options.compileAxioms = true →
      ∀ rule ∈ (Ontology.compile g).rules, e'.network.Decided rule) := by
  unfold loadAxioms at h
  split at h
  · obtain ⟨hfollows, hall⟩ := loadRules_ok h
    exact ⟨⟨hfollows.options, hfollows.supplementLoaded, hfollows.settles⟩, fun _ => hall⟩
  · rename_i hoff
    cases h
    exact ⟨⟨rfl, rfl, .refl _⟩, fun hon => absurd hon hoff⟩

/-- A batch of facts settles nothing new and forgets nothing. -/
theorem settles_feed {net net' : Network} {facts : List Triple} {stop : Readings}
    {result : Except FeedError FeedReport} (h : net.feed budget facts stop = some (net', result)) :
    Settles net net' :=
  .of_skeleton_eq <| feed_keeps (P := fun other => other.skeleton = net.skeleton)
    (fun _ _ _ hother hrun => (skeleton_run hrun).trans hother) rfl h

theorem feedOntology_ok {stop : Readings} {processed : Nat}
    (h : e.feedOntology budget g stop = some (e', .ok processed)) :
    Follows e e' ∧ ∀ again : Engine, again.options = e.options → again.network = e'.network →
      ∀ budget', again.feedOntology budget' g stop = some (again, .ok 0) := by
  unfold feedOntology at h
  split at h
  · rename_i hon
    obtain ⟨⟨fed, report⟩, hfeed, heq⟩ := Option.map_eq_some_iff.mp h
    obtain ⟨⟨net, counted⟩, hnet, hfed⟩ := Option.map_eq_some_iff.mp hfeed
    cases hfed
    cases counted with
    | error fault => cases heq
    | ok counted =>
      cases heq
      refine ⟨⟨rfl, rfl, settles_feed hnet⟩, fun again hoptions hsame budget' => ?_⟩
      have hagain := feed_again hnet budget'
      dsimp only at hsame
      rw [feedOntology, hoptions, if_pos hon, feed, hsame, hagain]
      obtain ⟨_, _, _, _⟩ := again
      cases hsame
      rfl
  · rename_i hoff
    cases h
    refine ⟨⟨rfl, rfl, .refl _⟩, fun again hoptions _ budget' => ?_⟩
    rw [feedOntology, hoptions, if_neg hoff]

/-! ### The steps again -/

theorem loadSupplement_again (h : (!e.options.addSupplement || e.supplementLoaded) = true)
    (budget : Nat) : e.loadSupplement budget = some (e, .ok {}) := by
  rw [loadSupplement, if_pos h]

/-- Axioms whose rules are decided add diagnostics at most. -/
theorem loadAxioms_again (h : e.options.compileAxioms = true →
      ∀ rule ∈ (Ontology.compile g).rules, e.network.Decided rule) (budget : Nat) :
    ∃ diagnostics report, e.loadAxioms budget g = some ({ e with diagnostics }, report) ∧
      report.added = [] := by
  unfold loadAxioms
  split
  · rename_i hon
    obtain ⟨report, hadd, hnone⟩ := addRules_again (h hon) budget
    refine ⟨e.diagnostics ++ (Ontology.compile g).diagnostics ++ report.dropped, report, ?_, hnone⟩
    dsimp only [loadRules]
    rw [hadd]
    rfl
  · exact ⟨e.diagnostics, {}, rfl, rfl⟩

theorem loadOntology_ok {report : BuildReport}
    (h : e.loadOntology budget g = some (e', .ok report)) :
    ∃ supplied supplement axioms, e.loadSupplement budget = some (supplied, .ok supplement) ∧
      supplied.loadAxioms budget g = some (e', axioms) := by
  obtain ⟨⟨supplied, supplement⟩, hsupplement, hrest⟩ := Option.bind_eq_some_iff.mp h
  cases supplement with
  | error error => cases hrest
  | ok supplement =>
    obtain ⟨⟨loaded, axioms⟩, haxioms, heq⟩ := Option.bind_eq_some_iff.mp hrest
    cases heq
    exact ⟨supplied, supplement, axioms, hsupplement, haxioms⟩

theorem computeClosure_ok {stop : Readings} {report : ClosureReport}
    (h : e.computeClosure budget g stop = some (e', .ok report)) :
    ∃ loaded build processed, e.loadOntology budget g = some (loaded, .ok build) ∧
      loaded.feedOntology budget g stop = some (e', .ok processed) ∧
      report = e'.result processed := by
  obtain ⟨⟨loaded, build⟩, hload, hrest⟩ := Option.bind_eq_some_iff.mp h
  cases build with
  | error error => cases hrest
  | ok build =>
    obtain ⟨⟨fed, processed⟩, hfeed, heq⟩ := Option.bind_eq_some_iff.mp hrest
    cases processed with
    | error error => cases heq
    | ok processed =>
      cases heq
      exact ⟨loaded, build, processed, hload, hfeed, rfl⟩

/-- **A closure that is computed again changes nothing.** The network is the same as a whole, and
none of the triples is new. -/
theorem computeClosure_again {report : ClosureReport}
    (h : e.computeClosure budget g = some (e', .ok report)) (budget' : Nat) :
    ∃ diagnostics report',
      e'.computeClosure budget' g = some ({ e' with diagnostics }, .ok report') ∧
      report'.inferred = report.inferred ∧ report'.processed = 0 ∧
      report'.network = report.network := by
  obtain ⟨loaded, build, processed, hload, hfeed, rfl⟩ := computeClosure_ok h
  obtain ⟨supplied, supplement, axioms, hsupplement, haxioms⟩ := loadOntology_ok hload
  obtain ⟨hsupplied, hdecided⟩ := loadAxioms_ok haxioms
  obtain ⟨hfed, hagain⟩ := feedOntology_ok hfeed
  have hoptions : e'.options = supplied.options := hfed.options.trans hsupplied.options
  have hready : (!e'.options.addSupplement || e'.supplementLoaded) = true := by
    rw [hoptions, hfed.supplementLoaded, hsupplied.supplementLoaded]
    exact loadSupplement_ok hsupplement
  obtain ⟨diagnostics, more, hmore, _⟩ := loadAxioms_again (e := e') (g := g)
    (fun hon rule hrule => (hdecided (hoptions ▸ hon) rule hrule).settles hfed.settles) budget'
  refine ⟨diagnostics, { e' with diagnostics }.result 0, ?_, rfl, rfl, rfl⟩
  have hload' : e'.loadOntology budget' g =
      some ({ e' with diagnostics }, .ok (({} : BuildReport).append more)) := by
    rw [loadOntology, loadSupplement_again hready]
    dsimp only [Option.bind_eq_bind, Option.bind_some]
    rw [hmore]
    rfl
  -- the flag is as it was
  have hflag : e'.network.cancellation.readings = e.network.cancellation.readings :=
    funext fun _ => (feedOntology_spec hfeed).1.trans (loadOntology_spec hload).1
  rw [computeClosure, hload', hflag]
  dsimp only [Option.bind_eq_bind, Option.bind_some]
  rw [hagain { e' with diagnostics } hfed.options rfl]
  rfl

/-- What `p` relates, some property without a name relates as well, and `p` relates `i` and `j`. -/
def someProperty : Graph := .ofList
  [⟨.iri "p", .iri Vocabulary.Rdfs.subPropertyOf, .blank "q"⟩, ⟨.iri "i", .iri "p", .iri "j"⟩]

/-- The property of `i` and `j` is minted once. -/
theorem computeClosure_again_of_someProperty : ∃ e report diagnostics report',
    (Engine.new { addSupplement := false }).computeClosure 9 someProperty = some (e, .ok report) ∧
      report.inferred = [⟨.iri "i", .blank "sk_1", .iri "j"⟩] ∧ report.processed = 2 ∧
      e.computeClosure 9 someProperty = some ({ e with diagnostics }, .ok report') ∧
      report'.inferred = [⟨.iri "i", .blank "sk_1", .iri "j"⟩] ∧ report'.processed = 0 ∧
      report'.network = report.network := by
  have hrun : (((Engine.new { addSupplement := false }).computeClosure 9 someProperty).bind fun e =>
      e.2.toOption.map fun report => (report.inferred, report.processed)) =
        some ([⟨.iri "i", .blank "sk_1", .iri "j"⟩], 2) := by decide +kernel
  obtain ⟨⟨e, result⟩, hclosure, hreport⟩ := Option.bind_eq_some_iff.mp hrun
  obtain ⟨report, hresult, heq⟩ := Option.map_eq_some_iff.mp hreport
  obtain ⟨hinferred, hprocessed⟩ := Prod.mk.inj heq
  cases result with
  | error error => cases hresult
  | ok found =>
    cases hresult
    obtain ⟨diagnostics, report', hagain, hinferred', hprocessed', hnetwork⟩ :=
      computeClosure_again hclosure 9
    exact ⟨e, report, diagnostics, report', hclosure, hinferred, hprocessed, hagain,
      hinferred'.trans hinferred, hprocessed', hnetwork⟩

end HornReasoner.Engine
