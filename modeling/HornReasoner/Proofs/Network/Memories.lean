import HornReasoner.Proofs.Network.History

/-! What the memories hold between calls.

The plan that a node covers can be read off the nodes themselves: `Covers` follows left
inputs up to the first node and collects the patterns on the edges. Between calls a join
holds on the right the matches of its own pattern, and on the left the matches of what
its parent covers, each once and under its own key. -/
namespace HornReasoner

/-- A memory holds just what belongs there, no two items for one `tuple`, and every item
in the bucket of its key. -/
structure Memory.Exact {α β : Type} (memory : Memory α) (belongs : α → Prop) (tuple : α → β)
    (key : α → Option (List Term)) : Prop where
  items : ∀ a, a ∈ memory.items ↔ belongs a
  once : (memory.items.map tuple).Nodup
  keys : (memory.map Prod.fst).Nodup
  keyed : ∀ e ∈ memory, e.2 ≠ [] ∧ ∀ a ∈ e.2, key a = some e.1

theorem Memory.exact_of_filed {α β : Type} {memory : Memory α} {as : List α} {belongs : α → Prop}
    {tuple : α → β} {key : α → Option (List Term)} (h : Buckets.Filed key memory as)
    (hbelongs : ∀ a, a ∈ as ↔ belongs a) (honce : (as.map tuple).Nodup) :
    memory.Exact belongs tuple key where
  items a := h.perm.mem_iff.trans (hbelongs a)
  once := (h.perm.map tuple).nodup_iff.mpr honce
  keys := h.keys
  keyed e he := ⟨h.nonempty e he, fun _ ha => h.key_of_mem he ha⟩

namespace Network

/-- The steps that a node covers, read off its inputs. -/
inductive Covers (net : Network) : BetaId → List PlanStep → Prop where
  | root {id : BetaId} {node : BetaNode} {a : AlphaId} {t : Triple} :
      net.betas[id.index]? = some node → node.left = .alpha a → node.right = .passThrough →
      ⟨id, .left, t⟩ ∈ net.edgesOf a → Covers net id [.pattern t]
  | join {id parent : BetaId} {node : BetaNode} {a : AlphaId} {t : Triple} {done : List PlanStep} :
      net.betas[id.index]? = some node → node.left = .beta parent → node.right = .alpha a →
      ⟨id, .right, t⟩ ∈ net.edgesOf a → Covers net parent done →
      Covers net id (done ++ [.pattern t])
  | test {id parent : BetaId} {node : BetaNode} {predicate : String} {t : Triple}
      {done : List PlanStep} : net.betas[id.index]? = some node → node.left = .beta parent →
      node.right = .builtin predicate t → Covers net parent done →
      Covers net id (done ++ [.builtin t])

variable {net : Network}

theorem mem_betaIds_of_getElem? {id : BetaId} {node : BetaNode}
    (h : net.betas[id.index]? = some node) : id ∈ net.betaIds :=
  mem_betaIds (joint?_of_getElem? h)

/-- The edge into a node has the node's own pattern. -/
theorem BetaWired.edge_unique (h : net.BetaWired) {steps : List PlanStep} {edge : AlphaEdge}
    (he : (steps, edge.beta) ∈ net.planIndex) {a : AlphaId} (hedge : edge ∈ net.edgesOf a) :
    edgeInto? (steps, edge.beta) = some edge := by
  have hmem : edge ∈ net.edges := by
    rw [edges_eq]
    have ha : a ∈ net.alphaIds := by
      unfold edgesOf at hedge
      cases hnode : net.alphas[a.index]? with
      | none => simp [hnode] at hedge
      | some node =>
        exact List.mem_map.mpr
          ⟨a.index, List.mem_range.mpr (List.getElem?_eq_some_iff.mp hnode).1, rfl⟩
    exact List.mem_flatMap.mpr ⟨a, ha, hedge⟩
  obtain ⟨e, hin, hinto⟩ := List.mem_filterMap.mp (h.edges.mem_iff.mp hmem)
  have hbeta : e.2 = edge.beta := by
    obtain ⟨t, _, rfl⟩ := Option.map_eq_some_iff.mp hinto
    rfl
  have heq : e.1 = steps := h.plan_unique (hbeta ▸ hin) he
  rw [← hbeta, ← heq]
  exact hinto

theorem edgeInto?_eq_some {steps : List PlanStep} {id : BetaId} {edge : AlphaEdge}
    (h : edgeInto? (steps, id) = some edge) : ∃ done, steps = done ++ [.pattern edge.pattern] ∧
      (edge.side = .left ↔ done = []) := by
  obtain ⟨t, hlast, rfl⟩ := Option.map_eq_some_iff.mp h
  obtain ⟨step, hstep, hpattern⟩ := Option.bind_eq_some_iff.mp hlast
  obtain ⟨done, rfl⟩ := List.getLast?_eq_some_iff.mp hstep
  cases step with
  | builtin u => cases hpattern
  | pattern u =>
    cases hpattern
    refine ⟨done, rfl, ?_⟩
    cases done <;> simp

/-- The node of a covered plan has that plan in the plan index. -/
theorem BetaWired.mem_planIndex (h : net.BetaWired) {id : BetaId} {steps : List PlanStep}
    (hcovers : net.Covers id steps) : (steps, id) ∈ net.planIndex := by
  induction hcovers with
  | @root id node a t hnode _ _ hedge =>
    obtain ⟨steps, he⟩ := h.exists_plan (mem_betaIds_of_getElem? hnode)
    obtain ⟨done, rfl, hside⟩ := edgeInto?_eq_some (h.edge_unique he hedge)
    cases hside.mp rfl
    exact he
  | @join id parent node a t done hnode hleft hright hedge _ ih =>
    obtain ⟨steps, he⟩ := h.exists_plan (mem_betaIds_of_getElem? hnode)
    obtain ⟨others, other, u, rfl, hparent, hleft', _⟩ :=
      h.node_of_alpha he (joint?_of_getElem? hnode) hright
    cases hleft.symm.trans hleft'
    -- the edge names the pattern: the alpha node alone may serve several
    obtain ⟨_, heq, _⟩ := edgeInto?_eq_some (h.edge_unique he hedge)
    rw [(List.append_inj' heq rfl).2] at he
    rw [h.plan_unique ih hparent]
    exact he
  | @test id parent node predicate t done hnode hleft hright _ ih =>
    obtain ⟨steps, he⟩ := h.exists_plan (mem_betaIds_of_getElem? hnode)
    obtain ⟨others, other, rfl, hparent, hleft'⟩ :=
      h.node_of_builtin he (joint?_of_getElem? hnode) hright
    cases hleft.symm.trans hleft'
    rw [h.plan_unique ih hparent]
    exact he

theorem BetaWired.covers (h : net.BetaWired) {id : BetaId} {steps : List PlanStep}
    (he : (steps, id) ∈ net.planIndex) : net.Covers id steps := by
  induction he using h.induction with
  | root t id he =>
    obtain ⟨joint, a, hjoint, hleft, hright, _, hedge⟩ := h.node_root he
    obtain ⟨node, hnode, rfl⟩ := Option.map_eq_some_iff.mp hjoint
    exact .root hnode hleft hright hedge
  | child done step id parent he hp ih =>
    cases step with
    | pattern t =>
      obtain ⟨joint, other, a, hjoint, hparent, hleft, hright, _, hedge⟩ :=
        h.node_join he (h.evaluable _ hp).1
      obtain ⟨node, hnode, rfl⟩ := Option.map_eq_some_iff.mp hjoint
      cases h.node_unique hp hparent
      exact .join hnode hleft hright hedge ih
    | builtin t =>
      obtain ⟨joint, other, hjoint, hparent, hleft, hright, _⟩ := h.node_test he
      obtain ⟨node, hnode, rfl⟩ := Option.map_eq_some_iff.mp hjoint
      cases h.node_unique hp hparent
      exact .test hnode hleft hright ih

/-- What is read off the inputs is what the plan index says. -/
theorem BetaWired.covers_iff (h : net.BetaWired) {id : BetaId} {steps : List PlanStep} :
    net.Covers id steps ↔ (steps, id) ∈ net.planIndex :=
  ⟨h.mem_planIndex, h.covers⟩

/-- At rest a join holds all matches of its pattern and of its parent's plan, each once. -/
theorem Resting.memories {fed : List Triple} (h : net.Resting fed []) {done : List PlanStep}
    {t : Triple} {id : BetaId} (he : (done ++ [.pattern t], id) ∈ net.planIndex) (hdone : done ≠ [])
    {node : BetaNode} (hnode : net.betas[id.index]? = some node) :
    node.rightMemory.Exact
        (fun m => m.fact ∈ net.workingMemory.toList ∧ Binding.ofMatch t m.fact = some m.binding)
        Match.fact (fun m => m.binding.keyFor node.joinVars) ∧
      node.leftMemory.Exact
        (fun i => (∀ u ∈ i.support, u ∈ net.workingMemory.toList) ∧
          Matches net.builtins (PlanStep.atoms done) i.support i.binding)
        Instantiation.support (fun i => i.binding.keyFor node.joinVars) := by
  obtain ⟨log, started, hrunning⟩ := h.running
  have hbeta := hrunning.wired.beta
  have hdelivered := hrunning.account.delivered h.idle
  have hholds := hrunning.account.memories id node hnode
  obtain ⟨joint, parent, a, hjoint, hparent, _, hright, _⟩ := hbeta.node_join he hdone
  cases hjoint.symm.trans (joint?_of_getElem? hnode)
  have hfacts : (factsOf log).Perm net.workingMemory.toList := by
    have hperm := hrunning.account.factsOf_perm
    rw [h.idle, List.append_nil] at hperm
    exact (List.append_nil _ ▸ hperm :)
  have hnodup : (factsOf log).Nodup := hfacts.nodup_iff.mpr net.workingMemory.nodup
  have hrights := (hdelivered.rights id).trans (rightsOf_setOff_pattern log hbeta he hdone)
  have hlefts : (leftsOf id log).Perm (instances net.builtins (factsOf log) done) := by
    refine (hdelivered.lefts id).trans ?_
    rw [leftsOf_setOff_child log hbeta he hparent]
    exact outputs_perm hbeta hdelivered hparent
  have hkeeps : node.keeps (leftsOf id log) = leftsOf id log := by
    have hright' : node.right = .alpha a := hright
    rw [BetaNode.keeps, hright']
  have hevaluable := (hbeta.evaluable _ hparent).2
  refine ⟨Memory.exact_of_filed hholds.right (fun m => ?_) ?_,
    Memory.exact_of_filed hholds.left (fun i => ?_) ?_⟩
  · rw [hrights.mem_iff, Match.mem_all, hfacts.mem_iff]
  · exact (hrights.map _).nodup_iff.mpr (Match.nodup_facts_all t hnodup)
  · rw [hkeeps, hlefts.mem_iff, mem_instances hevaluable]
    simp only [hfacts.mem_iff]
  · rw [hkeeps]
    exact (hlefts.map _).nodup_iff.mpr (nodup_support_instances hevaluable hnodup)

end Network

/-- **Between calls nothing is left to do and the memories of every join are exact**: the
right one holds the matches of the join's own pattern, one for each fact, the left one the
matches of what its parent covers, one for each list of facts, and every item stands under
the values of the join variables. -/
theorem History.memories_exact {builtins : Registry} {options : NetworkOptions} {net : Network}
    {ledger : Ledger} (h : History builtins options net ledger) :
    net.agenda = [] ∧ ∀ id : BetaId, ∀ node a, net.betas[id.index]? = some node →
      node.right = .alpha a →
      (∃ t parent done, ⟨id, .right, t⟩ ∈ net.edgesOf a ∧ node.left = .beta parent ∧
        net.Covers parent done) ∧
      ∀ t parent done, ⟨id, .right, t⟩ ∈ net.edgesOf a → node.left = .beta parent →
        net.Covers parent done →
        node.rightMemory.Exact
            (fun m => m.fact ∈ net.workingMemory.toList ∧
              Binding.ofMatch t m.fact = some m.binding)
            Match.fact (fun m => m.binding.keyFor node.joinVars) ∧
          node.leftMemory.Exact
            (fun i => (∀ u ∈ i.support, u ∈ net.workingMemory.toList) ∧
              Matches builtins (PlanStep.atoms done) i.support i.binding)
            Instantiation.support (fun i => i.binding.keyFor node.joinVars) := by
  have hkeeps := h.keeps
  have hbeta := hkeeps.resting.wired.beta
  refine ⟨hkeeps.resting.idle, fun id node a hnode hright => ⟨?_, ?_⟩⟩
  · obtain ⟨steps, he⟩ := hbeta.exists_plan (Network.mem_betaIds_of_getElem? hnode)
    obtain ⟨done, parent, t, _, hparent, hleft, hedge⟩ :=
      hbeta.node_of_alpha he (Network.joint?_of_getElem? hnode) hright
    exact ⟨t, parent, done, hedge, hleft, hbeta.covers_iff.mpr hparent⟩
  · intro t parent done hedge hleft hcovers
    have he := hbeta.covers_iff.mp (.join hnode hleft hright hedge hcovers)
    have hdone := (hbeta.evaluable _ (hbeta.covers_iff.mp hcovers)).1
    rw [← hkeeps.registry]
    exact hkeeps.resting.memories he hdone hnode

theorem History.memories_exact_of_chain : ∃ net ledger node a, History ∅ {} net ledger ∧
    net.workingMemory.toList = chain ++ [⟨.iri "a", .iri "p", .iri "c"⟩] ∧
    net.betas[1]? = some node ∧ node.right = .alpha a ∧ net.agenda = [] ∧
    ∃ t parent done, ⟨⟨1⟩, .right, t⟩ ∈ net.edgesOf a ∧ node.left = .beta parent ∧
      net.Covers parent done ∧
      node.rightMemory.Exact
        (fun m => m.fact ∈ net.workingMemory.toList ∧ Binding.ofMatch t m.fact = some m.binding)
        Match.fact (fun m => m.binding.keyFor node.joinVars) ∧
      node.leftMemory.Exact
        (fun i => (∀ u ∈ i.support, u ∈ net.workingMemory.toList) ∧
          Matches ∅ (PlanStep.atoms done) i.support i.binding)
        Instantiation.support (fun i => i.binding.keyFor node.joinVars) := by
  have hrun : ((Network.ofRule transitivity 20 chain).bind fun e =>
      (e.1.betas[1]?).map fun node => (e.1.workingMemory.toList, node.right)) =
        some (chain ++ [⟨.iri "a", .iri "p", .iri "c"⟩], .alpha ⟨0⟩) := by decide +kernel
  obtain ⟨⟨net, result⟩, hcalls, hnode⟩ := Option.bind_eq_some_iff.mp hrun
  obtain ⟨node, hnode, heq⟩ := Option.map_eq_some_iff.mp hnode
  obtain ⟨hmemory, hright⟩ := Prod.mk.inj heq
  obtain ⟨ledger, h, _, _⟩ := History.of_ofRule hcalls
  obtain ⟨hidle, hall⟩ := h.memories_exact
  obtain ⟨⟨t, parent, done, hedge, hleft, hcovers⟩, hexact⟩ := hall ⟨1⟩ node ⟨0⟩ hnode hright
  obtain ⟨hrights, hlefts⟩ := hexact t parent done hedge hleft hcovers
  exact ⟨net, ledger, node, ⟨0⟩, h, hmemory, hnode, hright, hidle, t, parent, done, hedge, hleft,
    hcovers, hrights, hlefts⟩

end HornReasoner
