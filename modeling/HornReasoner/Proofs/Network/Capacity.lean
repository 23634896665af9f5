import HornReasoner.Proofs.Network.Closure
import HornReasoner.Proofs.Rule.Renaming

/-! What a network can have to do.

Without existential variables no term is new, so the facts are triples over the terms that were
fed or stand in heads (`Grounded.mem_triplesOver`). And whatever a log of such facts sets off is
part of what all these triples would set off together (`Account.length_log_le`). -/
namespace HornReasoner

/-! ### Triples over given terms -/

def triplesOver (terms : List Term) : List Triple :=
  terms.flatMap fun s => terms.flatMap fun p => terms.map fun o => ⟨s, p, o⟩

theorem mem_triplesOver {terms : List Term} {t : Triple} :
    t ∈ triplesOver terms ↔ ∀ x ∈ t.terms, x ∈ terms := by
  obtain ⟨s, p, o⟩ := t
  simp [triplesOver, Triple.terms]

namespace Network

variable {net net' : Network} {fed : List Triple} {log started : List Activation}
  {owed : List Triple}

/-! ### Known terms -/

/-- No rule has existential variables. -/
def Datalog (net : Network) : Prop :=
  ∀ id p, net.production? id = some p → p.rule.existentials = []

theorem datalog_iff : net.Datalog ↔ ∀ id rule, net.rule? id = some rule → rule.existentials = [] := by
  constructor
  · intro h id rule hrule
    obtain ⟨p, hp, rfl⟩ := Option.map_eq_some_iff.mp hrule
    exact h id p hp
  · exact fun h id p hp => h id p.rule (rule?_of_production? hp)

theorem Datalog.of_skeleton_eq (h : net.Datalog) (hskeleton : net'.skeleton = net.skeleton) :
    net'.Datalog := by
  rw [datalog_iff] at h ⊢
  intro id rule hrule
  rw [rule?_of_skeleton_eq hskeleton] at hrule
  exact h id rule hrule

/-- The terms of the facts fed and of the heads. -/
def knownTerms (net : Network) (fed : List Triple) : List Term :=
  (fed ++ net.productions.flatMap fun p => p.rule.head).flatMap Triple.terms

theorem mem_knownTerms_of_fed {t : Triple} (ht : t ∈ fed) {x : Term} (hx : x ∈ t.terms) :
    x ∈ net.knownTerms fed :=
  List.mem_flatMap.mpr ⟨t, List.mem_append_left _ ht, hx⟩

theorem mem_knownTerms_of_head {id : ProductionId} {rule : HornRule}
    (hrule : net.rule? id = some rule) {atom : Triple} (hatom : atom ∈ rule.head) {x : Term}
    (hx : x ∈ atom.terms) : x ∈ net.knownTerms fed := by
  obtain ⟨p, hp, rfl⟩ := Option.map_eq_some_iff.mp hrule
  exact List.mem_flatMap.mpr ⟨atom, List.mem_append_right _ (List.mem_flatMap.mpr
    ⟨p, List.mem_of_getElem? hp, hatom⟩), hx⟩

/-- **Without existential variables no term is new.** -/
theorem Grounded.mem_triplesOver (h : net.Grounded fed) (hd : net.Datalog) :
    ∀ t ∈ net.workingMemory.toList, t ∈ triplesOver (net.knownTerms fed) := by
  refine h.induction (fun t ht => ?_) fun facts t hfacts ht => ?_
  · exact HornReasoner.mem_triplesOver.mpr fun x hx => mem_knownTerms_of_fed ht hx
  · obtain ⟨id, rule, i, fresh, hrule, hsupport, hmatch, hfresh, atom, hatom, ht⟩ := ht
    have hnone := datalog_iff.mp hd id rule hrule
    have hempty : fresh = [] := by
      rcases witnesses_eq_some_iff.mp hfresh with ⟨_, hempty⟩ | ⟨hsome, _⟩
      · exact hempty
      · exact absurd hnone hsome
    rw [hempty] at ht
    refine HornReasoner.mem_triplesOver.mpr fun x hx => ?_
    rcases Triple.term_of_substitute ht hx with ⟨hx, _⟩ | ⟨v, hv⟩
    · exact mem_knownTerms_of_head hrule hatom hx
    · obtain ⟨u, hu, hx⟩ := hmatch.value_mem hv
      exact HornReasoner.mem_triplesOver.mp (hfacts u (hsupport u hu)) x hx

theorem knownTerms_of_skeleton_eq (h : net'.skeleton = net.skeleton) (fed : List Triple) :
    net'.knownTerms fed = net.knownTerms fed := by
  have hproductions : net'.skeleton.productions.flatMap (fun p => p.rule.head) =
      net.skeleton.productions.flatMap fun p => p.rule.head := by rw [h]
  simp only [skeleton, List.flatMap_map] at hproductions
  rw [knownTerms, hproductions, knownTerms]

/-! ### What facts can set off -/

section
variable {facts : List Triple} {steps : List PlanStep} {id : BetaId}

/-- What the facts set off once they have gone through all nodes. -/
def prospect (net : Network) (facts : List Triple) : List Activation :=
  facts.flatMap net.alongEdges ++ net.planIndex.flatMap fun e =>
    (instances net.builtins facts e.1).flatMap (net.follow e.2)

/-- What came to the nodes is part of what was set off. -/
structure Partial (net : Network) (log : List Activation) : Prop where
  lefts : ∀ id, (leftsOf id log).Subperm (leftsOf id (net.setOff log))
  rights : ∀ id, (rightsOf id log).Subperm (rightsOf id (net.setOff log))

theorem Account.partial (h : Account net log started owed) : net.Partial log where
  lefts id := (List.sublist_append_left _ _).subperm.trans
    (h.filterMap_perm (h.left?_started id)).subperm
  rights id := (List.sublist_append_left _ _).subperm.trans
    (h.filterMap_perm (h.right?_started id)).subperm

/-- What has left a node is part of the instances of its plan. -/
theorem outputs_subperm (h : net.BetaWired) (hp : net.Partial log)
    (hfacts : (factsOf log).Subperm facts) (he : (steps, id) ∈ net.planIndex) :
    (net.outputs log id).Subperm (instances net.builtins facts steps) := by
  -- a plan is prolonged step by step, as its instances are
  induction he using h.induction with
  | root t id he =>
    rw [outputs_root h he, instances_singleton]
    have hall : ((Match.all t (factsOf log)).map Instantiation.ofMatch).Subperm
        ((Match.all t facts).map Instantiation.ofMatch) := by
      rw [← List.filterMap_eq_map]
      exact subperm_filterMap _ (subperm_filterMap (Match.of? t) hfacts)
    exact (hp.lefts id).trans ((leftsOf_setOff_root log h he).subperm.trans hall)
  | child done step id parent he hparent ih =>
    have hlefts : (leftsOf id log).Subperm (instances net.builtins facts done) := by
      refine (hp.lefts id).trans ?_
      rw [leftsOf_setOff_child log h he hparent]
      exact ih
    rw [instances_snoc]
    cases step with
    | pattern t =>
      have hdone := (h.evaluable _ hparent).1
      have hall : (Match.all t (factsOf log)).Subperm (Match.all t facts) :=
        subperm_filterMap (Match.of? t) hfacts
      have hrights := (hp.rights id).trans
        ((rightsOf_setOff_pattern log h he hdone).subperm.trans hall)
      rw [outputs_join h he hdone]
      exact subperm_flatMap hlefts fun i _ => subperm_filterMap i.join hrights
    | builtin t =>
      rw [outputs_test h he]
      exact hlefts.filter _

theorem setOff_subperm (h : net.BetaWired) (hp : net.Partial log)
    (hfacts : (factsOf log).Subperm facts) : (net.setOff log).Subperm (net.prospect facts) := by
  refine (subperm_flatMap hfacts fun _ _ => .refl _).append ?_
  rw [← h.ids, List.flatMap_map]
  exact subperm_flatMap (.refl _) fun e he =>
    subperm_flatMap (outputs_subperm h hp hfacts he) fun _ _ => .refl _

theorem prospect_of_skeleton_eq (h : net'.skeleton = net.skeleton) (facts : List Triple) :
    net'.prospect facts = net.prospect facts := by
  have hskeleton : ∀ net : Network, net.skeleton.prospect facts = net.prospect facts := by
    intro net
    have halong : net.skeleton.alongEdges = net.alongEdges := by
      funext fact
      rw [alongEdges, edges_skeleton, alongEdges]
    have hfollow : net.skeleton.follow = net.follow := by
      funext id i
      rw [follow, joint?_skeleton, follow]
    rw [prospect, halong, hfollow, planIndex_skeleton, builtins_skeleton, prospect]
  rw [← hskeleton net', h, hskeleton net]

/-- **A run has done no more than it was begun with and its facts can set off.** -/
theorem Account.length_log_le (h : Account net log started owed) (hw : net.Wired)
    (hfacts : net.workingMemory.toList ⊆ facts) :
    log.length ≤ started.length + (net.prospect facts).length := by
  have hmemory : net.workingMemory.toList.Subperm facts :=
    List.subperm_of_subset net.workingMemory.nodup hfacts
  -- a fact is in the log once at most
  have htested : (factsOf log).Subperm net.workingMemory.toList := by
    refine List.Subperm.trans ?_ h.factsOf_perm.subperm
    rw [List.append_assoc]
    exact (List.sublist_append_left _ _).subperm
  have hset := (setOff_subperm hw.beta h.partial (htested.trans hmemory)).length_le
  have hbalance := h.balance.length_eq
  rw [List.length_append, List.length_append] at hbalance
  omega

/-- Facts that a run was begun with are among its facts. -/
theorem Account.length_factsOf_started_le (h : Account net log started owed)
    (hfacts : net.workingMemory.toList ⊆ facts) : (factsOf started).length ≤ facts.length := by
  have hmemory := (List.subperm_of_subset net.workingMemory.nodup hfacts).length_le
  have hlength := h.facts.length_eq
  rw [List.length_append] at hlength
  omega

end

end Network

end HornReasoner
