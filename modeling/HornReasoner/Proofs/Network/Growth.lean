import HornReasoner.Proofs.Network.Wiring

/-! Growing a network keeps it wired.

Compiling a rule adds alpha nodes, then beta nodes with one edge each, then a production.
For each of the three: what the accessors of `Wiring` show afterwards, and that the
connections are still those of the plans. -/
namespace HornReasoner.Network

variable {net net' : Network}

/-- `net'` has more rules and nodes than `net`, and the new nodes are empty. Facts and
what is left to do are the same. -/
structure Extends (net net' : Network) : Prop where
  builtins : net'.builtins = net.builtins
  memory : net'.workingMemory = net.workingMemory
  inferred : net'.inferred = net.inferred
  skolem : net'.skolem = net.skolem
  agenda : net'.agenda = net.agenda
  options : net'.options = net.options
  provenance : net'.provenance = net.provenance
  firings : net'.firings = net.firings
  rules : ∀ id rule, net.rule? id = some rule → net'.rule? id = some rule
  empty : (∀ node ∈ net.betas, node.leftMemory = [] ∧ node.rightMemory = []) →
    ∀ node ∈ net'.betas, node.leftMemory = [] ∧ node.rightMemory = []

theorem Extends.refl (net : Network) : Extends net net :=
  ⟨rfl, rfl, rfl, rfl, rfl, rfl, rfl, rfl, fun _ _ h => h, fun h => h⟩

theorem Extends.trans {net'' : Network} (h : Extends net net') (h' : Extends net' net'') :
    Extends net net'' :=
  ⟨h'.builtins.trans h.builtins, h'.memory.trans h.memory, h'.inferred.trans h.inferred,
    h'.skolem.trans h.skolem, h'.agenda.trans h.agenda, h'.options.trans h.options,
    h'.provenance.trans h.provenance, h'.firings.trans h.firings,
    fun id rule hr => h'.rules id rule (h.rules id rule hr), fun he => h'.empty (h.empty he)⟩

/-- Inputs stay inputs when plans and edges are added. -/
theorem Inputs.mono {id : BetaId} {node node' : BetaNode} {steps : List PlanStep}
    (h : net.Inputs id node steps) (hbuiltins : net'.builtins = net.builtins)
    (hplans : ∀ e ∈ net.planIndex, e ∈ net'.planIndex)
    (hedges : ∀ a, ∀ edge ∈ net.edgesOf a, edge ∈ net'.edgesOf a) (hleft : node'.left = node.left)
    (hright : node'.right = node.right) (hvars : node'.joinVars = node.joinVars) :
    net'.Inputs id node' steps := by
  cases h with
  | root hl hr hv he => exact .root (hleft.trans hl) (hright.trans hr) (hvars.trans hv) (hedges _ _ he)
  | join hp hl hr hv he =>
    refine .join (hplans _ hp) (hleft.trans hl) (hright.trans hr) ?_ (hedges _ _ he)
    rw [hvars, hbuiltins]
    exact hv
  | test hp hl hr hv => exact .test (hplans _ hp) (hleft.trans hl) (hright.trans hr) (hvars.trans hv)

/-! ### Alpha nodes -/

section
variable (net : Network) (pattern : Triple)

/-- The network with a new alpha node for the pattern. -/
def addAlpha : Network :=
  { net with
    alphas := net.alphas ++ [{ key := AlphaKey.of pattern, pattern := pattern }]
    alphaIndex := net.alphaIndex ++ [(AlphaKey.of pattern, ⟨net.alphas.length⟩)]
    predicateIndex := match (AlphaKey.of pattern).predicate? with
      | some predicate => net.predicateIndex.add predicate ⟨net.alphas.length⟩
      | none => net.predicateIndex
    wildcards := match (AlphaKey.of pattern).predicate? with
      | some _ => net.wildcards
      | none => net.wildcards ++ [⟨net.alphas.length⟩] }

theorem alphaFor_of_none (h : net.alphaIndex.lookup (AlphaKey.of pattern) = none) :
    net.alphaFor pattern = (net.addAlpha pattern, ⟨net.alphas.length⟩) := by
  unfold alphaFor addAlpha
  dsimp only
  rw [h]
  cases (AlphaKey.of pattern).predicate? <;> rfl

theorem alphaFor_of_some {id : AlphaId} (h : net.alphaIndex.lookup (AlphaKey.of pattern) = some id) :
    net.alphaFor pattern = (net, id) := by
  unfold alphaFor
  dsimp only
  rw [h]

theorem alphaIds_addAlpha :
    (net.addAlpha pattern).alphaIds = net.alphaIds ++ [⟨net.alphas.length⟩] := by
  rw [addAlpha]
  simp [alphaIds, List.range_succ]

theorem alphaKey?_addAlpha (id : AlphaId) : (net.addAlpha pattern).alphaKey? id =
    if id = ⟨net.alphas.length⟩ then some (AlphaKey.of pattern) else net.alphaKey? id := by
  obtain ⟨n⟩ := id
  rw [addAlpha, alphaKey?, alphaKey?]
  dsimp only
  rw [List.getElem?_append]
  by_cases hlt : n < net.alphas.length
  · have hne : n ≠ net.alphas.length := by omega
    simp [hlt, hne]
  · by_cases heq : n = net.alphas.length
    · simp [heq]
    · have hnone : [({ key := AlphaKey.of pattern, pattern := pattern } : AlphaNode)][
          n - net.alphas.length]? = none := by
        rw [List.getElem?_eq_none_iff, List.length_singleton]
        omega
      simp [hlt, heq, hnone]

theorem edgesOf_addAlpha (id : AlphaId) : (net.addAlpha pattern).edgesOf id = net.edgesOf id := by
  obtain ⟨n⟩ := id
  rw [addAlpha, edgesOf, edgesOf]
  dsimp only
  rw [List.getElem?_append]
  by_cases hlt : n < net.alphas.length
  · simp [hlt]
  · have hold : net.alphas[n]? = none := List.getElem?_eq_none (by omega)
    rw [if_neg hlt, hold]
    by_cases heq : n - net.alphas.length = 0
    · simp [heq]
    · rw [List.getElem?_eq_none (by rw [List.length_singleton]; omega)]

theorem edges_addAlpha : (net.addAlpha pattern).edges = net.edges := by
  rw [addAlpha, edges, edges]
  simp

end

/-- No node has an identifier beyond the last. -/
theorem alphaKey?_length (net : Network) : net.alphaKey? ⟨net.alphas.length⟩ = none := by
  rw [alphaKey?, List.getElem?_eq_none (Nat.le_refl _)]
  rfl

theorem mem_alphaIds_of_key {id : AlphaId} {key : AlphaKey} (h : net.alphaKey? id = some key) :
    id ∈ net.alphaIds := by
  obtain ⟨node, hnode, _⟩ := Option.map_eq_some_iff.mp h
  exact List.mem_map.mpr ⟨id.index, List.mem_range.mpr (List.getElem?_eq_some_iff.mp hnode).1, rfl⟩

theorem alphaKey?_addAlpha_of_some {id : AlphaId} {key : AlphaKey}
    (h : net.alphaKey? id = some key) (pattern : Triple) :
    (net.addAlpha pattern).alphaKey? id = some key := by
  rw [alphaKey?_addAlpha, if_neg, h]
  rintro rfl
  rw [alphaKey?_length] at h
  cases h

/-- The nodes picked out by their keys are the old ones and perhaps the new one. -/
theorem filter_addAlpha (net : Network) (pattern : Triple) (p : AlphaKey → Bool) :
    ((net.addAlpha pattern).alphaIds.filter fun id =>
      ((net.addAlpha pattern).alphaKey? id).any p) =
        (net.alphaIds.filter fun id => (net.alphaKey? id).any p) ++
          if p (AlphaKey.of pattern) then [⟨net.alphas.length⟩] else [] := by
  rw [alphaIds_addAlpha, List.filter_append]
  congr 1
  · refine List.filter_congr fun id hid => ?_
    rw [alphaKey?_addAlpha, if_neg]
    rintro rfl
    obtain ⟨n, hn, heq⟩ := List.mem_map.mp hid
    cases heq
    exact absurd (List.mem_range.mp hn) (Nat.lt_irrefl _)
  · rw [List.filter_singleton, alphaKey?_addAlpha, if_pos rfl, Option.any_some, Bool.cond_eq_ite]

theorem AlphaWired.addAlpha (h : net.AlphaWired) (pattern : Triple) :
    (net.addAlpha pattern).AlphaWired := by
  refine ⟨fun id edge hedge => ?_, fun key id hfound => ?_, fun t => ?_, ?_⟩
  · rw [edgesOf_addAlpha] at hedge
    exact alphaKey?_addAlpha_of_some (h.keyed id edge hedge) pattern
  · have hindex : (net.addAlpha pattern).alphaIndex =
        net.alphaIndex ++ [(AlphaKey.of pattern, ⟨net.alphas.length⟩)] := rfl
    rw [hindex, List.lookup_append, Option.or_eq_some_iff] at hfound
    rcases hfound with hfound | ⟨_, hfound⟩
    · exact alphaKey?_addAlpha_of_some (h.indexed key id hfound) pattern
    · rw [List.lookup_cons] at hfound
      split at hfound
      · rename_i heq
        cases hfound
        rw [alphaKey?_addAlpha, if_pos rfl, eq_of_beq heq]
      · cases hfound
  · rw [filter_addAlpha net pattern fun key => key.predicate? = some t, ← h.byPredicate, Network.addAlpha]
    dsimp only
    cases hp : (AlphaKey.of pattern).predicate? with
    | none => simp
    | some predicate =>
      dsimp only
      rw [Buckets.find_add]
      by_cases heq : t = predicate
      · simp [heq]
      · simp [heq, Ne.symm heq]
  · rw [filter_addAlpha net pattern fun key => key.predicate? = none, ← h.wildcards, Network.addAlpha]
    dsimp only
    cases hp : (AlphaKey.of pattern).predicate? with
    | none => simp
    | some predicate => simp

theorem Inputs.addAlpha {id : BetaId} {node : BetaNode} {steps : List PlanStep}
    (h : net.Inputs id node steps) (pattern : Triple) :
    (net.addAlpha pattern).Inputs id node steps := by
  refine h.mono rfl (fun _ he => he) (fun a edge hedge => ?_) rfl rfl rfl
  rw [edgesOf_addAlpha]
  exact hedge

theorem Wired.addAlpha (h : net.Wired) (pattern : Triple) : (net.addAlpha pattern).Wired where
  alpha := h.alpha.addAlpha pattern
  beta :=
    { ids := h.beta.ids
      plans := h.beta.plans
      evaluable := h.beta.evaluable
      edges := edges_addAlpha net pattern ▸ h.beta.edges
      inputs := by
        intro e he
        obtain ⟨node, hnode, hinputs, hsuccessors⟩ := h.beta.inputs e he
        exact ⟨node, hnode, hinputs.addAlpha pattern, hsuccessors⟩ }
  production := ⟨h.production.planned, h.production.ending, h.production.truths, h.production.signed⟩

/-- The alpha node of a pattern has its key. -/
theorem alphaFor_spec (h : net.Wired) (pattern : Triple) :
    (net.alphaFor pattern).1.Wired ∧ Extends net (net.alphaFor pattern).1 ∧
      (net.alphaFor pattern).1.alphaKey? (net.alphaFor pattern).2 = some (AlphaKey.of pattern) ∧
      ∀ id key, net.alphaKey? id = some key →
        (net.alphaFor pattern).1.alphaKey? id = some key := by
  cases hfound : net.alphaIndex.lookup (AlphaKey.of pattern) with
  | some id =>
    rw [alphaFor_of_some net pattern hfound]
    exact ⟨h, .refl net, h.alpha.indexed _ id hfound, fun _ _ hkey => hkey⟩
  | none =>
    rw [alphaFor_of_none net pattern hfound]
    refine ⟨h.addAlpha pattern, ⟨rfl, rfl, rfl, rfl, rfl, rfl, rfl, rfl, fun _ _ hr => hr,
      fun he => he⟩, ?_, fun id key hkey => ?_⟩
    · rw [alphaKey?_addAlpha, if_pos rfl]
    · rw [alphaKey?_addAlpha, if_neg, hkey]
      rintro rfl
      rw [alphaKey?_length] at hkey
      cases hkey

/-! ### Beta nodes -/

/-- The network with a new beta node for a plan, an edge to it and a parent of it. -/
def addBeta (net : Network) (edge : Option (AlphaId × AlphaEdge)) (parent : Option BetaId)
    (node : BetaNode) (steps : List PlanStep) : Network :=
  { net with
    alphas := match edge with
      | some (a, e) => net.alphas.modify a.index fun node =>
          { node with successors := node.successors ++ [e] }
      | none => net.alphas
    betas := (match parent with
      | some p => net.betas.modify p.index fun node =>
          { node with successors := node.successors ++ [⟨net.betas.length⟩] }
      | none => net.betas) ++ [node]
    planIndex := net.planIndex ++ [(steps, ⟨net.betas.length⟩)] }

section
variable (net : Network) (edge : Option (AlphaId × AlphaEdge)) (parent : Option BetaId)
  (node : BetaNode) (steps : List PlanStep)

theorem alphaIds_addBeta : (net.addBeta edge parent node steps).alphaIds = net.alphaIds := by
  unfold addBeta alphaIds
  dsimp only
  split <;> simp

theorem alphaKey?_addBeta (id : AlphaId) :
    (net.addBeta edge parent node steps).alphaKey? id = net.alphaKey? id := by
  unfold addBeta alphaKey?
  dsimp only
  split
  · rename_i a e
    rw [List.getElem?_modify]
    cases net.alphas[id.index]? with
    | none => rfl
    | some old => by_cases h : a.index = id.index <;> simp [h]
  · rfl

theorem edgesOf_addBeta_of_ne {id : AlphaId} (h : ∀ e ∈ edge, e.1 ≠ id) :
    (net.addBeta edge parent node steps).edgesOf id = net.edgesOf id := by
  unfold addBeta edgesOf
  dsimp only
  split
  · rename_i a e
    have hne : a.index ≠ id.index := by
      intro heq
      obtain ⟨n⟩ := a
      obtain ⟨m⟩ := id
      exact h (⟨n⟩, e) rfl (congrArg AlphaId.mk heq)
    rw [List.getElem?_modify]
    cases net.alphas[id.index]? with
    | none => rfl
    | some old => simp [hne]
  · rfl

theorem edgesOf_addBeta_self {id : AlphaId} {e : AlphaEdge} (h : id ∈ net.alphaIds) :
    (net.addBeta (some (id, e)) parent node steps).edgesOf id = net.edgesOf id ++ [e] := by
  obtain ⟨n, hn, rfl⟩ := List.mem_map.mp h
  obtain ⟨old, hold⟩ : ∃ old, net.alphas[n]? = some old :=
    ⟨_, List.getElem?_eq_getElem (List.mem_range.mp hn)⟩
  simp [addBeta, edgesOf, hold]

theorem mem_edgesOf_addBeta (h : ∀ e ∈ edge, e.1 ∈ net.alphaIds) (id : AlphaId) (x : AlphaEdge) :
    x ∈ (net.addBeta edge parent node steps).edgesOf id ↔
      x ∈ net.edgesOf id ∨ edge = some (id, x) := by
  cases edge with
  | none => rw [edgesOf_addBeta_of_ne net none parent node steps (by simp)]; simp
  | some e =>
    by_cases heq : e.1 = id
    · subst heq
      rw [edgesOf_addBeta_self net parent node steps (h e rfl), List.mem_append,
        List.mem_singleton, Option.some.injEq]
      exact or_congr_right ⟨fun hx => hx ▸ rfl, fun hx => (congrArg Prod.snd hx).symm⟩
    · rw [edgesOf_addBeta_of_ne net (some e) parent node steps (by simpa using heq)]
      refine (or_iff_left fun hx => heq ?_).symm
      exact congrArg Prod.fst (Option.some.inj hx)

theorem edges_addBeta (h : ∀ e ∈ edge, e.1 ∈ net.alphaIds) :
    (net.addBeta edge parent node steps).edges.Perm (net.edges ++ edge.toList.map Prod.snd) := by
  rw [edges_eq, edges_eq, alphaIds_addBeta]
  cases edge with
  | none =>
    have hsame : ∀ id ∈ net.alphaIds, (net.addBeta none parent node steps).edgesOf id =
        net.edgesOf id := fun id _ => edgesOf_addBeta_of_ne net none parent node steps (by simp)
    rw [List.flatMap_congr hsame]
    simp
  | some e =>
    refine flatMap_perm_append_of_unique net.nodup_alphaIds (h e rfl) (fun id _ hne => ?_)
      (.of_eq ?_)
    · refine edgesOf_addBeta_of_ne net (some e) parent node steps ?_
      simpa using Ne.symm hne
    · exact edgesOf_addBeta_self net parent node steps (h e rfl)

theorem betaIds_addBeta :
    (net.addBeta edge parent node steps).betaIds = net.betaIds ++ [⟨net.betas.length⟩] := by
  unfold addBeta betaIds
  dsimp only
  split <;> simp [List.range_succ]

theorem joint?_addBeta (id : BetaId) : (net.addBeta edge parent node steps).joint? id =
    if id = ⟨net.betas.length⟩ then some node.clear
    else (net.joint? id).map fun old =>
      if parent = some id then { old with successors := old.successors ++ [⟨net.betas.length⟩] }
      else old := by
  obtain ⟨n⟩ := id
  unfold addBeta joint?
  dsimp only
  rw [List.getElem?_append]
  cases parent with
  | none =>
    by_cases hlt : n < net.betas.length
    · have hne : n ≠ net.betas.length := by omega
      simp [hlt, hne]
    · by_cases heq : n = net.betas.length
      · simp [heq]
      · have hnone : [node][n - net.betas.length]? = none := by
          rw [List.getElem?_eq_none_iff, List.length_singleton]
          omega
        simp [hlt, heq, hnone]
  | some p =>
    dsimp only
    rw [List.length_modify]
    by_cases hlt : n < net.betas.length
    · have hne : n ≠ net.betas.length := by omega
      obtain ⟨m⟩ := p
      by_cases hmn : m = n <;> simp [hlt, hne, hmn, BetaNode.clear]
    · by_cases heq : n = net.betas.length
      · simp [heq]
      · have hnone : [node][n - net.betas.length]? = none := by
          rw [List.getElem?_eq_none_iff, List.length_singleton]
          omega
        simp [hlt, heq, hnone]

theorem children_addBeta (others : List PlanStep) :
    (net.addBeta edge parent node steps).children others =
      net.children others ++ if steps.dropLast = others then [⟨net.betas.length⟩] else [] := by
  unfold addBeta children
  dsimp only
  rw [List.filterMap_append]
  congr 1
  by_cases h : steps.dropLast = others <;> simp [h]

end

theorem not_mem_betaIds (net : Network) : (⟨net.betas.length⟩ : BetaId) ∉ net.betaIds := by
  intro h
  obtain ⟨n, hn, heq⟩ := List.mem_map.mp h
  cases heq
  exact absurd (List.mem_range.mp hn) (Nat.lt_irrefl _)

theorem BetaWired.ne_length (h : net.BetaWired) {e : List PlanStep × BetaId}
    (he : e ∈ net.planIndex) : e.2 ≠ ⟨net.betas.length⟩ := by
  have hmem : e.2 ∈ net.betaIds := h.ids ▸ List.mem_map_of_mem he
  intro heq
  rw [heq] at hmem
  exact net.not_mem_betaIds hmem

/-- No node covers more of a plan than a node that is not there. -/
theorem BetaWired.children_eq_nil (h : net.BetaWired) {steps : List PlanStep} (hsteps : steps ≠ [])
    (hnew : ∀ e ∈ net.planIndex, e.1 ≠ steps) : net.children steps = [] := by
  refine List.filterMap_eq_nil_iff.mpr fun e he => if_neg ?_
  rintro rfl
  obtain ⟨node, _, hinputs, _⟩ := h.inputs e he
  obtain ⟨others, hothers⟩ : ∃ others, e.1 = others := ⟨_, rfl⟩
  rw [hothers] at hinputs hsteps hnew
  cases hinputs with
  | root => exact hsteps rfl
  | join hp | test hp => exact hnew _ hp (List.dropLast_concat ..).symm

section
variable {edge : Option (AlphaId × AlphaEdge)} {parent : Option BetaId} {node : BetaNode}
  {steps : List PlanStep}

theorem AlphaWired.addBeta (h : net.AlphaWired)
    (hedge : ∀ e ∈ edge, net.alphaKey? e.1 = some (AlphaKey.of e.2.pattern)) :
    (net.addBeta edge parent node steps).AlphaWired := by
  have hids : ∀ e ∈ edge, e.1 ∈ net.alphaIds := fun e he => mem_alphaIds_of_key (hedge e he)
  refine ⟨fun id x hx => ?_, fun key id hfound => ?_, fun t => ?_, ?_⟩
  · rw [alphaKey?_addBeta]
    rcases (mem_edgesOf_addBeta net edge parent node steps hids id x).mp hx with hx | hx
    · exact h.keyed id x hx
    · exact hedge (id, x) hx
  · rw [alphaKey?_addBeta]
    exact h.indexed key id hfound
  · simp only [alphaIds_addBeta, alphaKey?_addBeta]
    exact h.byPredicate t
  · simp only [alphaIds_addBeta, alphaKey?_addBeta]
    exact h.wildcards

/-- A node keeps its inputs when another one is attached. -/
theorem Inputs.addBeta {id : BetaId} {old : BetaNode} {plan : List PlanStep}
    (h : net.Inputs id old plan) (hids : ∀ e ∈ edge, e.1 ∈ net.alphaIds) :
    (net.addBeta edge parent node steps).Inputs id
      (if parent = some id then
        { old with successors := old.successors ++ [⟨net.betas.length⟩] } else old) plan := by
  refine h.mono rfl (fun e he => List.mem_append_left _ he) (fun a x hx => ?_) ?_ ?_ ?_
  · exact (mem_edgesOf_addBeta net edge parent node steps hids a x).mpr (.inl hx)
  all_goals split <;> rfl

theorem BetaWired.addBeta (h : net.BetaWired) (hids : ∀ e ∈ edge, e.1 ∈ net.alphaIds)
    (hparent : ∀ e ∈ net.planIndex, parent = some e.2 ↔ steps.dropLast = e.1)
    (hnew : ∀ e ∈ net.planIndex, e.1 ≠ steps)
    (hevaluable : steps ≠ [] ∧ Evaluable net.builtins steps)
    (hinto : edgeInto? (steps, ⟨net.betas.length⟩) = edge.map Prod.snd)
    (hinputs : (net.addBeta edge parent node steps).Inputs ⟨net.betas.length⟩ node.clear steps)
    (hsuccessors : node.successors = []) : (net.addBeta edge parent node steps).BetaWired := by
  have hindex : (net.addBeta edge parent node steps).planIndex =
      net.planIndex ++ [(steps, ⟨net.betas.length⟩)] := rfl
  refine ⟨?_, ?_, fun e he => ?_, ?_, fun e he => ?_⟩
  · rw [hindex, List.map_append, h.ids, betaIds_addBeta]
    rfl
  · rw [hindex, List.map_append]
    refine List.nodup_append.mpr ⟨h.plans, List.nodup_singleton _, fun s hs t ht => ?_⟩
    obtain ⟨e, he, rfl⟩ := List.mem_map.mp hs
    rw [List.mem_singleton.mp ht]
    exact hnew e he
  · rw [hindex] at he
    rcases List.mem_append.mp he with he | he
    · exact h.evaluable e he
    · rw [List.mem_singleton.mp he]
      exact hevaluable
  · refine (edges_addBeta net edge parent node steps hids).trans ?_
    rw [hindex, List.filterMap_append]
    refine h.edges.append (.of_eq ?_)
    rw [List.filterMap_cons, hinto]
    cases edge <;> rfl
  · rw [hindex] at he
    rcases List.mem_append.mp he with he | he
    · obtain ⟨old, hold, hin, hsucc⟩ := h.inputs e he
      have hjoint := joint?_addBeta net edge parent node steps e.2
      rw [if_neg (h.ne_length he), hold, Option.map_some] at hjoint
      refine ⟨_, hjoint, hin.addBeta hids, ?_⟩
      rw [children_addBeta, ← hsucc]
      by_cases hp : parent = some e.2
      · rw [if_pos hp, if_pos ((hparent e he).mp hp)]
      · rw [if_neg hp, if_neg fun heq => hp ((hparent e he).mpr heq), List.append_nil]
    · rw [List.mem_singleton.mp he]
      refine ⟨node.clear, ?_, hinputs, ?_⟩
      · rw [joint?_addBeta, if_pos rfl]
      · have hlast : steps.dropLast ≠ steps := fun heq => by
          have := congrArg List.length heq
          rw [List.length_dropLast] at this
          have := List.length_pos_iff.mpr hevaluable.1
          omega
        rw [children_addBeta, h.children_eq_nil hevaluable.1 hnew, if_neg hlast]
        exact hsuccessors

theorem ProductionWired.addBeta (h : net.ProductionWired) (hb : net.BetaWired)
    (hproductions : node.productions = []) :
    (net.addBeta edge parent node steps).ProductionWired := by
  refine ⟨fun id rule hrule => ?_, fun id other hother => ?_, h.truths, h.signed⟩
  · obtain ⟨hhead, plan, hplan, hcases⟩ := h.planned id rule hrule
    refine ⟨hhead, plan, hplan, hcases.imp_right ?_⟩
    rintro ⟨terminal, he, hid⟩
    exact ⟨terminal, List.mem_append_left _ he, hid⟩
  · rw [joint?_addBeta] at hother
    show other.productions = net.productionsAt (some id)
    by_cases hid : id = ⟨net.betas.length⟩
    · rw [if_pos hid] at hother
      cases hother
      refine hproductions.trans (List.eq_nil_iff_forall_not_mem.mpr fun p hp => ?_).symm
      rw [mem_productionsAt] at hp
      obtain ⟨_, _, _, _, he⟩ := h.planned_some hp
      exact hb.ne_length he hid
    · rw [if_neg hid] at hother
      obtain ⟨old, hold, rfl⟩ := Option.map_eq_some_iff.mp hother
      rw [← h.ending id old hold]
      split <;> rfl

end

theorem Extends.addBeta (net : Network) (edge : Option (AlphaId × AlphaEdge)) (parent : Option BetaId)
    {node : BetaNode} (steps : List PlanStep) (hleft : node.leftMemory = [])
    (hright : node.rightMemory = []) : Extends net (net.addBeta edge parent node steps) := by
  refine ⟨rfl, rfl, rfl, rfl, rfl, rfl, rfl, rfl, fun _ _ hr => hr, fun hempty old hold => ?_⟩
  rcases List.mem_append.mp hold with hold | hold
  · split at hold
    · obtain ⟨n, hn⟩ := List.mem_iff_getElem?.mp hold
      rw [List.getElem?_modify] at hn
      obtain ⟨before, hbefore, heq⟩ := Option.map_eq_some_iff.mp hn
      have hmem := hempty before (List.mem_of_getElem? hbefore)
      split at heq <;> (rw [← heq]; exact hmem)
    · exact hempty old hold
  · rw [List.mem_singleton.mp hold]
    exact ⟨hleft, hright⟩

/-! ### Productions -/

section
variable (net : Network) (rule : HornRule) (terminal : Option BetaId)

theorem addProduction_eq : net.addProduction rule terminal =
    ({ net with
      betas := match terminal with
        | some beta => net.betas.modify beta.index fun node =>
            { node with productions := node.productions ++ [⟨net.productions.length⟩] }
        | none => net.betas
      truths := match terminal with
        | some _ => net.truths
        | none => net.truths ++ [⟨net.productions.length⟩]
      productions := net.productions ++ [{ rule := rule, terminal := terminal }]
      signatureIndex := net.signatureIndex ++ [(.of rule, ⟨net.productions.length⟩)] },
      ⟨net.productions.length⟩) := by
  unfold addProduction
  cases terminal <;> rfl

@[simp] theorem planIndex_addProduction :
    (net.addProduction rule terminal).1.planIndex = net.planIndex := by
  rw [addProduction_eq]

@[simp] theorem builtins_addProduction :
    (net.addProduction rule terminal).1.builtins = net.builtins := by
  rw [addProduction_eq]

@[simp] theorem alphas_addProduction :
    (net.addProduction rule terminal).1.alphas = net.alphas := by
  rw [addProduction_eq]

@[simp] theorem betaIds_addProduction :
    (net.addProduction rule terminal).1.betaIds = net.betaIds := by
  rw [addProduction_eq]
  cases terminal <;> simp [betaIds]

theorem production?_addProduction (id : ProductionId) :
    (net.addProduction rule terminal).1.production? id =
      if id = ⟨net.productions.length⟩ then some { rule := rule, terminal := terminal }
      else net.production? id := by
  obtain ⟨n⟩ := id
  rw [addProduction_eq, production?, production?]
  dsimp only
  rw [List.getElem?_append]
  by_cases hlt : n < net.productions.length
  · have hne : n ≠ net.productions.length := by omega
    simp [hlt, hne]
  · by_cases heq : n = net.productions.length
    · simp [heq]
    · have hnone : [({ rule := rule, terminal := terminal } : Production)][
          n - net.productions.length]? = none := by
        rw [List.getElem?_eq_none_iff, List.length_singleton]
        omega
      simp [hlt, heq, hnone]

theorem rule?_addProduction (id : ProductionId) : (net.addProduction rule terminal).1.rule? id =
    if id = ⟨net.productions.length⟩ then some rule else net.rule? id := by
  rw [rule?, production?_addProduction, rule?]
  split <;> rfl

theorem terminal?_addProduction (id : ProductionId) :
    (net.addProduction rule terminal).1.terminal? id =
      if id = ⟨net.productions.length⟩ then some terminal else net.terminal? id := by
  rw [terminal?, production?_addProduction, terminal?]
  split <;> rfl

theorem productionsAt_addProduction (other : Option BetaId) :
    (net.addProduction rule terminal).1.productionsAt other =
      net.productionsAt other ++ if terminal = other then [⟨net.productions.length⟩] else [] := by
  have hids : (net.addProduction rule terminal).1.productionIds =
      net.productionIds ++ [⟨net.productions.length⟩] := by
    rw [addProduction_eq]
    simp [productionIds, List.range_succ]
  rw [productionsAt, hids, List.filter_append, productionsAt]
  congr 1
  · refine List.filter_congr fun id hid => ?_
    rw [terminal?_addProduction, if_neg]
    rintro rfl
    obtain ⟨n, hn, heq⟩ := List.mem_map.mp hid
    cases heq
    exact absurd (List.mem_range.mp hn) (Nat.lt_irrefl _)
  · by_cases heq : terminal = other <;> simp [terminal?_addProduction, heq]

theorem joint?_addProduction (id : BetaId) : (net.addProduction rule terminal).1.joint? id =
    (net.joint? id).map fun node =>
      if terminal = some id then
        { node with productions := node.productions ++ [⟨net.productions.length⟩] }
      else node := by
  rw [addProduction_eq, joint?, joint?]
  cases terminal with
  | none => cases net.betas[id.index]? <;> rfl
  | some beta =>
    obtain ⟨n⟩ := beta
    obtain ⟨m⟩ := id
    dsimp only
    rw [List.getElem?_modify]
    cases net.betas[m]? with
    | none => rfl
    | some old => by_cases hnm : n = m <;> simp [hnm, BetaNode.clear]

end

section
variable {rule : HornRule} {terminal : Option BetaId}

theorem AlphaWired.addProduction (h : net.AlphaWired) :
    (net.addProduction rule terminal).1.AlphaWired := by
  rw [addProduction_eq]
  exact ⟨h.keyed, h.indexed, h.byPredicate, h.wildcards⟩

theorem BetaWired.addProduction (h : net.BetaWired) :
    (net.addProduction rule terminal).1.BetaWired := by
  refine ⟨?_, ?_, ?_, ?_, fun e he => ?_⟩
  · rw [planIndex_addProduction, betaIds_addProduction]
    exact h.ids
  · rw [planIndex_addProduction]
    exact h.plans
  · rw [planIndex_addProduction, builtins_addProduction]
    exact h.evaluable
  · rw [planIndex_addProduction, Network.edges, alphas_addProduction]
    exact h.edges
  · rw [planIndex_addProduction] at he
    obtain ⟨node, hnode, hinputs, hsuccessors⟩ := h.inputs e he
    have hjoint := joint?_addProduction net rule terminal e.2
    rw [hnode, Option.map_some] at hjoint
    refine ⟨_, hjoint, ?_, ?_⟩
    · refine hinputs.mono (by simp) (fun e he => by simpa using he) (fun a x hx => ?_) ?_ ?_ ?_
      · rw [edgesOf, alphas_addProduction]
        exact hx
      all_goals split <;> rfl
    · rw [children, planIndex_addProduction]
      split <;> exact hsuccessors

theorem signed_addProduction (h : net.ProductionWired) {sig : RuleSignature} {id : ProductionId}
    (hfound : (net.addProduction rule terminal).1.signatureIndex.lookup sig = some id) :
    ((net.addProduction rule terminal).1.rule? id).map RuleSignature.of = some sig := by
  rw [addProduction_eq] at hfound
  dsimp only at hfound
  rw [List.lookup_append, Option.or_eq_some_iff] at hfound
  rw [rule?_addProduction]
  rcases hfound with hfound | ⟨_, hfound⟩
  · have hold := h.signed sig id hfound
    have hne : id ≠ ⟨net.productions.length⟩ := by
      rintro rfl
      obtain ⟨other, hother, _⟩ := Option.map_eq_some_iff.mp hold
      obtain ⟨production, hproduction, _⟩ := Option.map_eq_some_iff.mp hother
      exact absurd (List.getElem?_eq_some_iff.mp hproduction).1 (Nat.lt_irrefl _)
    rw [if_neg hne]
    exact hold
  · rw [List.lookup_cons] at hfound
    split at hfound
    · rename_i heq
      cases hfound
      rw [if_pos rfl, eq_of_beq heq]
      rfl
    · cases hfound

theorem ProductionWired.addProduction (h : net.ProductionWired) (hhead : rule.head ≠ [])
    (hplan : ∃ steps, plan net.builtins rule.body = .ok steps ∧
      ((steps = [] ∧ terminal = none) ∨ ∃ beta, (steps, beta) ∈ net.planIndex ∧ terminal = some beta)) :
    (net.addProduction rule terminal).1.ProductionWired := by
  refine ⟨fun id other hother => ?_, fun id node hnode => ?_, ?_, fun _ _ => signed_addProduction h⟩
  · rw [builtins_addProduction, planIndex_addProduction, terminal?_addProduction]
    rw [rule?_addProduction] at hother
    by_cases hid : id = ⟨net.productions.length⟩
    · rw [if_pos hid] at hother
      cases hother
      obtain ⟨steps, hsteps, hcases⟩ := hplan
      refine ⟨hhead, steps, hsteps, ?_⟩
      rw [if_pos hid]
      rcases hcases with ⟨hnil, hnone⟩ | ⟨beta, hmem, hsome⟩
      · exact .inl ⟨hnil, congrArg some hnone⟩
      · exact .inr ⟨beta, hmem, congrArg some hsome⟩
    · rw [if_neg hid] at hother ⊢
      exact h.planned id other hother
  · rw [joint?_addProduction] at hnode
    obtain ⟨old, hold, rfl⟩ := Option.map_eq_some_iff.mp hnode
    rw [productionsAt_addProduction, ← h.ending id old hold]
    split
    · rfl
    · exact (List.append_nil _).symm
  · rw [productionsAt_addProduction, ← h.truths, addProduction_eq]
    cases terminal <;> simp

/-- A rule that ends at the node of its plan. -/
theorem Wired.addProduction (h : net.Wired) (hhead : rule.head ≠ [])
    (hplan : ∃ steps, plan net.builtins rule.body = .ok steps ∧
      ((steps = [] ∧ terminal = none) ∨ ∃ beta, (steps, beta) ∈ net.planIndex ∧ terminal = some beta)) :
    (net.addProduction rule terminal).1.Wired :=
  ⟨h.alpha.addProduction, h.beta.addProduction, h.production.addProduction hhead hplan⟩

end

end HornReasoner.Network
