import HornReasoner.Proofs.Network.Account
import Mathlib.Data.List.Perm.Basic

/-! What a log sends to each node.

The connections decide where the activations go that a log sets off: matches of its
pattern to the node that covers a plan of one step, what left its parent to the left of
any other node, and to a production what left its terminal node. With that, what left a
node is compared with the instances of its plan. -/
namespace HornReasoner.Network

variable {net : Network}

/-! ### The alpha nodes test no edge in vain -/

theorem flatMap_edgesOf {β : Type} (net : Network) (g : AlphaEdge → Option β) :
    (net.alphaIds.flatMap fun id => (net.edgesOf id).filterMap g) = net.edges.filterMap g := by
  rw [edges_eq, List.filterMap_flatMap]

/-- A fact activates exactly the edges whose patterns it matches. -/
theorem activateAlphas_agenda (h : net.AlphaWired) (fact : Triple) :
    (net.activateAlphas fact).agenda.Perm (net.alongEdges fact ++ net.agenda) := by
  have hagenda : (net.activateAlphas fact).agenda = ((net.candidates fact).filter
      (net.accepts fact)).flatMap (fun id => (net.edgesOf id).filterMap (alongEdge fact)) ++
        net.agenda := by
    refine congrArg (· ++ net.agenda) (List.flatMap_congr fun id _ => ?_)
    rw [edgesOf]
    cases net.alphas[id.index]? <;> rfl
  have hnone : ∀ id ∈ net.alphaIds, net.accepts fact id = false →
      (net.edgesOf id).filterMap (alongEdge fact) = [] := by
    intro id _ hrefused
    refine List.filterMap_eq_nil_iff.mpr fun edge hedge => ?_
    obtain ⟨node, hnode, hkey⟩ := Option.map_eq_some_iff.mp (h.keyed id edge hedge)
    rw [accepts, hnode, Option.any_some, hkey] at hrefused
    cases hmatch : Binding.ofMatch edge.pattern fact with
    | none => rw [alongEdge, hmatch, Option.map_none]
    | some b =>
      rw [AlphaKey.holds_of_substitute (Binding.ofMatch_spec hmatch).1] at hrefused
      cases hrefused
  have hmatching : ((net.candidates fact).filter (net.accepts fact)).Perm
      (net.alphaIds.filter (net.accepts fact)) := by
    rw [candidates, h.byPredicate, h.wildcards]
    refine filter_append_filter_perm fun id _ haccepts => ?_
    obtain ⟨node, hnode, hholds⟩ := (Option.any_eq_true _ _).mp haccepts
    rw [alphaKey?, hnode, Option.map_some, Option.any_some, Option.any_some]
    cases hp : node.key.predicate? with
    | none => simp
    | some t => simp [AlphaKey.predicate_of_holds hholds hp]
  rw [hagenda, alongEdges, ← flatMap_edgesOf, ← flatMap_filter_of_eq_nil hnone]
  exact (hmatching.flatMap_right _).append_right _

/-! ### What facts send -/

namespace BetaWired
variable {steps : List PlanStep} {id : BetaId}

/-- A fact reaches a node along the edge into it only. -/
theorem alongEdges_into (h : net.BetaWired) (he : (steps, id) ∈ net.planIndex) {β : Type}
    {g : Activation → Option β}
    (hg : ∀ edge : AlphaEdge, edge.beta ≠ id → ∀ fact, (alongEdge fact edge).bind g = none)
    (fact : Triple) :
    ((net.alongEdges fact).filterMap g).Perm
      ((edgeInto? (steps, id)).bind fun edge => (alongEdge fact edge).bind g).toList := by
  have hedges := ((h.edges.filterMap (alongEdge fact)).filterMap g)
  rw [List.filterMap_filterMap, List.filterMap_filterMap, List.filterMap_filterMap] at hedges
  rw [alongEdges, List.filterMap_filterMap]
  refine hedges.trans (.of_eq ?_)
  refine filterMap_eq_of_unique h.nodup_planIndex he fun e hmem hne => ?_
  have hid : e.2 ≠ id := by
    rintro rfl
    exact hne (Prod.ext (h.plan_unique hmem he) rfl)
  cases hinto : edgeInto? e with
  | none => rfl
  | some edge =>
    obtain ⟨t, _, rfl⟩ := Option.map_eq_some_iff.mp hinto
    exact hg _ hid fact

theorem left?_alongEdge {edge : AlphaEdge} (hne : edge.beta ≠ id) (fact : Triple) :
    (alongEdge fact edge).bind (Activation.left? id) = none := by
  unfold alongEdge
  cases Binding.ofMatch edge.pattern fact with
  | none => rfl
  | some b => cases hside : edge.side <;> simp [Activation.left?, hne]

theorem right?_alongEdge {edge : AlphaEdge} (hne : edge.beta ≠ id) (fact : Triple) :
    (alongEdge fact edge).bind (Activation.right? id) = none := by
  unfold alongEdge
  cases Binding.ofMatch edge.pattern fact with
  | none => rfl
  | some b => cases hside : edge.side <;> simp [Activation.right?, hne]

/-- The first node of a plan gets the matches of its pattern. -/
theorem leftsOf_alongEdges_root (h : net.BetaWired) {t : Triple}
    (he : ([.pattern t], id) ∈ net.planIndex) (fact : Triple) :
    (leftsOf id (net.alongEdges fact)).Perm
      ((Match.of? t fact).map Instantiation.ofMatch).toList := by
  refine (h.alongEdges_into he (fun _ hne => left?_alongEdge hne) fact).trans (.of_eq ?_)
  congr 1
  show ((Binding.ofMatch t fact).map _).bind (Activation.left? id) = _
  cases hmatch : Binding.ofMatch t fact <;> simp [Activation.left?, Match.of?, hmatch]

/-- No other node has a fact on its left. -/
theorem leftsOf_alongEdges_child (h : net.BetaWired) {done : List PlanStep} {step : PlanStep}
    (he : (done ++ [step], id) ∈ net.planIndex) (hdone : done ≠ []) (fact : Triple) :
    leftsOf id (net.alongEdges fact) = [] := by
  refine List.Perm.eq_nil ((h.alongEdges_into he (fun _ hne => left?_alongEdge hne) fact).trans
    (.of_eq ?_))
  cases hinto : edgeInto? (done ++ [step], id) with
  | none => rfl
  | some edge =>
    obtain ⟨t, _, rfl⟩ := Option.map_eq_some_iff.mp hinto
    have hlength : (done ++ [step]).length ≠ 1 := by
      simpa using hdone
    rw [Option.bind_some, if_neg hlength]
    unfold alongEdge
    dsimp only
    cases Binding.ofMatch t fact <;> rfl

/-- A join gets the matches of its pattern on the right. -/
theorem rightsOf_alongEdges_pattern (h : net.BetaWired) {done : List PlanStep} {t : Triple}
    (he : (done ++ [.pattern t], id) ∈ net.planIndex) (hdone : done ≠ []) (fact : Triple) :
    (rightsOf id (net.alongEdges fact)).Perm (Match.of? t fact).toList := by
  refine (h.alongEdges_into he (fun _ hne => right?_alongEdge hne) fact).trans (.of_eq ?_)
  have hinto : edgeInto? (done ++ [.pattern t], id) = some ⟨id, .right, t⟩ := by
    have hlength : (done ++ [PlanStep.pattern t]).length ≠ 1 := by
      simpa using hdone
    rw [edgeInto?, List.getLast?_concat, if_neg hlength]
    rfl
  rw [hinto, Option.bind_some]
  unfold alongEdge
  dsimp only
  cases hmatch : Binding.ofMatch t fact <;> simp [Activation.right?, Match.of?, hmatch]

/-! ### What nodes send -/

/-- A node sends what leaves it to the nodes that cover its plan and one step more. -/
theorem leftsOf_follow (h : net.BetaWired) {others : List PlanStep} {other : BetaId}
    (he : (steps, id) ∈ net.planIndex) (ho : (others, other) ∈ net.planIndex) (i : Instantiation) :
    leftsOf id (net.follow other i) = if steps.dropLast = others then [i] else [] := by
  obtain ⟨node, hnode, _, hsuccessors⟩ := h.inputs _ ho
  dsimp only at hnode hsuccessors
  have hfirings : (node.productions.map (.fire · i)).filterMap (Activation.left? id) = [] := by
    rw [List.filterMap_map]
    exact List.filterMap_eq_nil_iff.mpr fun _ _ => rfl
  have hjoins : ((net.children others).map (.left · i)).filterMap (Activation.left? id) =
      if steps.dropLast = others then [i] else [] := by
    rw [List.filterMap_map, children, List.filterMap_filterMap]
    refine (filterMap_eq_of_unique h.nodup_planIndex he fun e hmem hne => ?_).trans ?_
    · have hid : e.2 ≠ id := by
        rintro rfl
        exact hne (Prod.ext (h.plan_unique hmem he) rfl)
      split <;> simp [Activation.left?, hid]
    · by_cases hothers : steps.dropLast = others <;> simp [Activation.left?, hothers]
  rw [follow, hnode, Option.map_some, Option.getD_some, followers, hsuccessors, leftsOf,
    List.filterMap_append, hfirings, hjoins, List.nil_append]

theorem rightsOf_follow (net : Network) (id other : BetaId) (i : Instantiation) :
    rightsOf id (net.follow other i) = [] := by
  rw [rightsOf, List.filterMap_eq_nil_iff, follow]
  cases net.joint? other with
  | none => simp
  | some node =>
    intro a ha
    rcases List.mem_append.mp ha with ha | ha
    · obtain ⟨_, _, rfl⟩ := List.mem_map.mp ha
      rfl
    · obtain ⟨_, _, rfl⟩ := List.mem_map.mp ha
      rfl

end BetaWired

/-- A node fires the productions that end there. -/
theorem firesOf_follow (h : net.ProductionWired) {terminal : BetaId}
    (hid : terminal ∈ net.betaIds) (id : ProductionId) (i : Instantiation) :
    firesOf id (net.follow terminal i) =
      if net.terminal? id = some (some terminal) then [i] else [] := by
  obtain ⟨node, hnode⟩ := exists_joint hid
  have hjoins : (node.successors.map (.left · i)).filterMap (Activation.fire? id) = [] := by
    rw [List.filterMap_map]
    exact List.filterMap_eq_nil_iff.mpr fun _ _ => rfl
  have hfirings : ((net.productionsAt (some terminal)).map (.fire · i)).filterMap (Activation.fire? id) =
      if net.terminal? id = some (some terminal) then [i] else [] := by
    have hone : ∀ others : List ProductionId, others.Nodup →
        (others.map (.fire · i)).filterMap (Activation.fire? id) =
          if id ∈ others then [i] else [] := by
      intro others hnodup
      rw [List.filterMap_map]
      split
      · rename_i hmem
        refine (filterMap_eq_of_unique hnodup hmem fun other _ hne => ?_).trans ?_
        · simp [Activation.fire?, hne]
        · simp [Activation.fire?]
      · rename_i hmem
        refine List.filterMap_eq_nil_iff.mpr fun other hother => ?_
        have hne : other ≠ id := fun heq => hmem (heq ▸ hother)
        simp [Activation.fire?, hne]
    refine (hone _ (net.nodup_productionIds.filter _)).trans ?_
    exact if_congr mem_productionsAt rfl rfl
  rw [follow, hnode, Option.map_some, Option.getD_some, followers, h.ending _ _ hnode, firesOf,
    List.filterMap_append, hjoins, hfirings, List.append_nil]

theorem firesOf_alongEdges (net : Network) (id : ProductionId) (fact : Triple) :
    firesOf id (net.alongEdges fact) = [] := by
  refine List.filterMap_eq_nil_iff.mpr fun a ha => ?_
  obtain ⟨edge, _, ha⟩ := List.mem_filterMap.mp ha
  obtain ⟨b, _, rfl⟩ := Option.map_eq_some_iff.mp ha
  cases edge.side <;> rfl

/-! ### What a log sends -/

section
variable {steps : List PlanStep} {id : BetaId} (log : List Activation)

/-- Parts of what a log sends, by where they come from. -/
theorem filterMap_setOff {β : Type} (g : Activation → Option β) :
    (net.setOff log).filterMap g =
      ((factsOf log).flatMap fun fact => (net.alongEdges fact).filterMap g) ++
        net.betaIds.flatMap fun other =>
          (net.outputs log other).flatMap fun i => (net.follow other i).filterMap g := by
  simp only [setOff, List.filterMap_append, List.filterMap_flatMap]

theorem leftsOf_setOff_root (h : net.BetaWired) {t : Triple}
    (he : ([.pattern t], id) ∈ net.planIndex) :
    (leftsOf id (net.setOff log)).Perm
      ((Match.all t (factsOf log)).map Instantiation.ofMatch) := by
  have hnodes : (net.betaIds.flatMap fun other =>
      (net.outputs log other).flatMap fun i => leftsOf id (net.follow other i)) = [] := by
    refine List.flatMap_eq_nil_iff.mpr fun other hother => List.flatMap_eq_nil_iff.mpr fun i _ => ?_
    obtain ⟨others, ho⟩ := h.exists_plan hother
    rw [h.leftsOf_follow he ho, if_neg]
    exact fun hnil => (h.evaluable _ ho).1 hnil.symm
  have hfacts : ((factsOf log).flatMap fun fact => leftsOf id (net.alongEdges fact)).Perm
      ((factsOf log).flatMap fun fact =>
        ((Match.of? t fact).map Instantiation.ofMatch).toList) :=
    List.Perm.flatMap_left _ fun fact _ => h.leftsOf_alongEdges_root he fact
  rw [leftsOf, filterMap_setOff]
  refine (hfacts.append (.of_eq hnodes)).trans (.of_eq ?_)
  rw [List.append_nil, ← List.filterMap_eq_flatMap_toList, Match.all, List.map_filterMap]

theorem leftsOf_setOff_child (h : net.BetaWired) {done : List PlanStep} {step : PlanStep}
    {parent : BetaId} (he : (done ++ [step], id) ∈ net.planIndex)
    (hp : (done, parent) ∈ net.planIndex) :
    leftsOf id (net.setOff log) = net.outputs log parent := by
  have hfacts : ((factsOf log).flatMap fun fact => leftsOf id (net.alongEdges fact)) = [] :=
    List.flatMap_eq_nil_iff.mpr fun fact _ =>
      h.leftsOf_alongEdges_child he (h.evaluable _ hp).1 fact
  have hnodes : (net.betaIds.flatMap fun other => (net.outputs log other).flatMap fun i =>
      leftsOf id (net.follow other i)) = net.outputs log parent := by
    refine (flatMap_eq_of_unique net.nodup_betaIds (h.mem_betaIds hp) fun other hother hne => ?_).trans
      ?_
    · refine List.flatMap_eq_nil_iff.mpr fun i _ => ?_
      obtain ⟨others, ho⟩ := h.exists_plan hother
      rw [h.leftsOf_follow he ho, List.dropLast_concat, if_neg]
      rintro rfl
      exact hne (h.node_unique ho hp)
    · refine (List.flatMap_congr fun i _ => ?_).trans (List.flatMap_singleton' _)
      rw [h.leftsOf_follow he hp, List.dropLast_concat, if_pos rfl]
  rw [leftsOf, filterMap_setOff]
  exact (congrArg₂ _ hfacts hnodes).trans (List.nil_append _)

theorem rightsOf_setOff_pattern (h : net.BetaWired) {done : List PlanStep} {t : Triple}
    (he : (done ++ [.pattern t], id) ∈ net.planIndex) (hdone : done ≠ []) :
    (rightsOf id (net.setOff log)).Perm (Match.all t (factsOf log)) := by
  have hnodes : (net.betaIds.flatMap fun other =>
      (net.outputs log other).flatMap fun i => rightsOf id (net.follow other i)) = [] :=
    List.flatMap_eq_nil_iff.mpr fun other _ => List.flatMap_eq_nil_iff.mpr fun i _ =>
      BetaWired.rightsOf_follow net id other i
  have hfacts : ((factsOf log).flatMap fun fact => rightsOf id (net.alongEdges fact)).Perm
      ((factsOf log).flatMap fun fact => (Match.of? t fact).toList) :=
    List.Perm.flatMap_left _ fun fact _ => h.rightsOf_alongEdges_pattern he hdone fact
  rw [rightsOf, filterMap_setOff]
  refine (hfacts.append (.of_eq hnodes)).trans (.of_eq ?_)
  rw [List.append_nil, ← List.filterMap_eq_flatMap_toList, Match.all]

theorem firesOf_setOff (h : net.ProductionWired) (id : ProductionId) :
    firesOf id (net.setOff log) = net.betaIds.flatMap fun terminal =>
      if net.terminal? id = some (some terminal) then net.outputs log terminal else [] := by
  have hfacts : ((factsOf log).flatMap fun fact => firesOf id (net.alongEdges fact)) = [] :=
    List.flatMap_eq_nil_iff.mpr fun fact _ => firesOf_alongEdges net id fact
  rw [firesOf, filterMap_setOff]
  refine (congrArg (· ++ _) hfacts).trans ((List.nil_append _).trans ?_)
  refine List.flatMap_congr fun terminal hterminal => ?_
  have hfollow : ∀ i, (net.follow terminal i).filterMap (Activation.fire? id) =
      if net.terminal? id = some (some terminal) then [i] else [] :=
    firesOf_follow h hterminal id
  simp only [hfollow]
  split
  · exact List.flatMap_singleton' _
  · exact List.flatMap_eq_nil_iff.mpr fun _ _ => rfl

/-- A production that ends at a node fires on what leaves the node. -/
theorem firesOf_setOff_terminal (h : net.Wired) {id : ProductionId} {terminal : BetaId}
    (hid : net.terminal? id = some (some terminal)) (hterminal : terminal ∈ net.betaIds) :
    firesOf id (net.setOff log) = net.outputs log terminal := by
  rw [firesOf_setOff log h.production]
  refine (flatMap_eq_of_unique net.nodup_betaIds hterminal fun other _ hne => ?_).trans (if_pos hid)
  rw [hid, if_neg]
  intro heq
  exact hne (Option.some.inj (Option.some.inj heq)).symm

end

/-! ### What leaves a node -/

/-- Whatever came to a node has been set off. -/
structure Covered (net : Network) (log : List Activation) : Prop where
  lefts : ∀ id, leftsOf id log ⊆ leftsOf id (net.setOff log)
  rights : ∀ id, rightsOf id log ⊆ rightsOf id (net.setOff log)

/-- What has been set off has come, and nothing else has. -/
structure Delivered (net : Network) (log : List Activation) : Prop where
  lefts : ∀ id, (leftsOf id log).Perm (leftsOf id (net.setOff log))
  rights : ∀ id, (rightsOf id log).Perm (rightsOf id (net.setOff log))

theorem instances_singleton (r : Registry) (facts : List Triple) (t : Triple) :
    instances r facts [.pattern t] = (Match.all t facts).map Instantiation.ofMatch := by
  have hjoin : ∀ m : Match, ({} : Instantiation).join m = some (.ofMatch m) := by
    intro m
    rw [Instantiation.join, Binding.empty_merge]
    rfl
  refine (List.flatMap_singleton _ _).trans ?_
  rw [← List.filterMap_eq_map]
  exact List.filterMap_congr fun m _ => hjoin m

section
variable {log : List Activation} {steps : List PlanStep} {id : BetaId}

theorem outputs_root (h : net.BetaWired) {t : Triple} (he : ([.pattern t], id) ∈ net.planIndex) :
    net.outputs log id = leftsOf id log := by
  obtain ⟨node, _, hnode, _, hright, _⟩ := h.node_root he
  rw [outputs, hnode, Option.map_some, Option.getD_some, BetaNode.emitted, hright]

theorem outputs_join (h : net.BetaWired) {done : List PlanStep} {t : Triple}
    (he : (done ++ [.pattern t], id) ∈ net.planIndex) (hdone : done ≠ []) :
    net.outputs log id =
      (leftsOf id log).flatMap fun i => (rightsOf id log).filterMap i.join := by
  obtain ⟨node, _, _, hnode, _, _, hright, _⟩ := h.node_join he hdone
  rw [outputs, hnode, Option.map_some, Option.getD_some, BetaNode.emitted, hright]

theorem outputs_test (h : net.BetaWired) {done : List PlanStep} {t : Triple}
    (he : (done ++ [.builtin t], id) ∈ net.planIndex) :
    net.outputs log id = (leftsOf id log).filter fun i =>
      testBuiltin net.builtins (predicateName t.predicate) t i.binding := by
  obtain ⟨node, _, hnode, _, _, hright, _⟩ := h.node_test he
  rw [outputs, hnode, Option.map_some, Option.getD_some, BetaNode.emitted, hright]

/-- Whatever leaves a node is an instance of its plan. -/
theorem outputs_subset (h : net.BetaWired) (hc : net.Covered log)
    (he : (steps, id) ∈ net.planIndex) :
    net.outputs log id ⊆ instances net.builtins (factsOf log) steps := by
  induction he using h.induction with
  | root t id he =>
    rw [outputs_root h he, instances_singleton]
    exact fun i hi => (leftsOf_setOff_root log h he).subset (hc.lefts id hi)
  | child done step id parent he hp ih =>
    have hlefts : leftsOf id log ⊆ instances net.builtins (factsOf log) done := by
      intro i hi
      have hset := hc.lefts id hi
      rw [leftsOf_setOff_child log h he hp] at hset
      exact ih hset
    rw [instances_snoc]
    cases step with
    | pattern t =>
      have hdone := (h.evaluable _ hp).1
      rw [outputs_join h he hdone]
      intro i hi
      obtain ⟨j, hj, hi⟩ := List.mem_flatMap.mp hi
      obtain ⟨m, hm, hi⟩ := List.mem_filterMap.mp hi
      refine List.mem_flatMap.mpr ⟨j, hlefts hj, List.mem_filterMap.mpr ⟨m, ?_, hi⟩⟩
      exact (rightsOf_setOff_pattern log h he hdone).subset (hc.rights id hm)
    | builtin t =>
      rw [outputs_test h he]
      intro i hi
      obtain ⟨hmem, htest⟩ := List.mem_filter.mp hi
      exact List.mem_filter.mpr ⟨hlefts hmem, htest⟩

/-- What has left a node in the end are the instances of its plan. -/
theorem outputs_perm (h : net.BetaWired) (hd : net.Delivered log)
    (he : (steps, id) ∈ net.planIndex) :
    (net.outputs log id).Perm (instances net.builtins (factsOf log) steps) := by
  induction he using h.induction with
  | root t id he =>
    rw [outputs_root h he, instances_singleton]
    exact (hd.lefts id).trans (leftsOf_setOff_root log h he)
  | child done step id parent he hp ih =>
    have hlefts : (leftsOf id log).Perm (instances net.builtins (factsOf log) done) := by
      refine (hd.lefts id).trans ?_
      rw [leftsOf_setOff_child log h he hp]
      exact ih
    rw [instances_snoc]
    cases step with
    | pattern t =>
      have hdone := (h.evaluable _ hp).1
      have hrights := (hd.rights id).trans (rightsOf_setOff_pattern log h he hdone)
      rw [outputs_join h he hdone]
      exact hlefts.flatMap fun i _ => hrights.filterMap i.join
    | builtin t =>
      rw [outputs_test h he]
      exact hlefts.filter _

end

end HornReasoner.Network
