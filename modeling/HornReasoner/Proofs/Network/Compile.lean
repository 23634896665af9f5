import HornReasoner.Proofs.Network.Growth
import HornReasoner.Proofs.Network.Plan

/-! Compiling keeps a network wired.

A plan shares the nodes of its longest covered start; the others are added one by one,
each a child of the one before (`attachAll_spec`). What becomes of a rule is in its
outcome (`Compiled`). -/
namespace HornReasoner

namespace Network

variable {net net' : Network}

/-- The attachment found for a step. -/
def Attached (net : Network) : PlanStep × Attachment → Prop
  | (.pattern t, .alpha a u) => u = t ∧ net.alphaKey? a = some (AlphaKey.of t)
  | (.builtin t, .builtin u) => u = t
  | _ => False

/-- The parts of a network that no attachment changes. -/
structure SameRules (net net' : Network) : Prop where
  productions : net'.productions = net.productions
  truths : net'.truths = net.truths
  signatureIndex : net'.signatureIndex = net.signatureIndex

theorem SameRules.trans {net'' : Network} (h : SameRules net net') (h' : SameRules net' net'') :
    SameRules net net'' :=
  ⟨h'.productions.trans h.productions, h'.truths.trans h.truths,
    h'.signatureIndex.trans h.signatureIndex⟩

theorem alphaFor_same (net : Network) (t : Triple) :
    SameRules net (net.alphaFor t).1 ∧ (net.alphaFor t).1.planIndex = net.planIndex := by
  cases hfound : net.alphaIndex.lookup (AlphaKey.of t) with
  | some id =>
    rw [alphaFor_of_some net t hfound]
    exact ⟨⟨rfl, rfl, rfl⟩, rfl⟩
  | none =>
    rw [alphaFor_of_none net t hfound]
    exact ⟨⟨rfl, rfl, rfl⟩, rfl⟩

/-- Every step finds its attachment, and no beta node is added. -/
theorem attachments_spec (h : net.Wired) (steps : List PlanStep) :
    (net.attachments steps).1.Wired ∧ Extends net (net.attachments steps).1 ∧
      SameRules net (net.attachments steps).1 ∧
      (net.attachments steps).1.planIndex = net.planIndex ∧
      (∀ id key, net.alphaKey? id = some key → (net.attachments steps).1.alphaKey? id = some key) ∧
      (net.attachments steps).2.length = steps.length ∧
      ∀ e ∈ steps.zip (net.attachments steps).2, Attached (net.attachments steps).1 e := by
  induction steps generalizing net with
  | nil => exact ⟨h, .refl net, ⟨rfl, rfl, rfl⟩, rfl, fun _ _ hk => hk, rfl, by simp [attachments]⟩
  | cons step rest ih =>
    cases step with
    | pattern t =>
      obtain ⟨hwired, hextends, hkey, hkept⟩ := alphaFor_spec h t
      obtain ⟨hsame, hindex⟩ := alphaFor_same net t
      obtain ⟨hwired', hextends', hsame', hindex', hkept', hlength, hall⟩ := ih hwired
      rw [attachments]
      refine ⟨hwired', hextends.trans hextends', hsame.trans hsame', hindex'.trans hindex,
        fun id key hk => hkept' id key (hkept id key hk), congrArg (· + 1) hlength, ?_⟩
      intro e he
      rcases List.mem_cons.mp he with rfl | he
      · exact ⟨rfl, hkept' _ _ hkey⟩
      · exact hall e he
    | builtin t =>
      obtain ⟨hwired', hextends', hsame', hindex', hkept', hlength, hall⟩ := ih h
      rw [attachments]
      refine ⟨hwired', hextends', hsame', hindex', hkept', congrArg (· + 1) hlength, ?_⟩
      intro e he
      rcases List.mem_cons.mp he with rfl | he
      · exact rfl
      · exact hall e he

/-- How far the nodes of a plan have been attached. -/
structure Covering (net : Network) (done : List PlanStep) (current : Option BetaId)
    (bound : List Variable) : Prop where
  node : (done = [] ∧ current = none) ∨ ∃ id, current = some id ∧ (done, id) ∈ net.planIndex
  bound : ∀ v, v ∈ bound ↔ v ∈ net.builtins.boundVars (PlanStep.atoms done)

theorem Covering.parent {done : List PlanStep} {current : Option BetaId} {bound : List Variable}
    (hc : net.Covering done current bound) (h : net.BetaWired) (step : PlanStep) :
    ∀ e ∈ net.planIndex, current = some e.2 ↔ (done ++ [step]).dropLast = e.1 := by
  intro e he
  rw [List.dropLast_concat]
  rcases hc.node with ⟨rfl, rfl⟩ | ⟨id, rfl, hid⟩
  · exact iff_of_false (by simp) fun heq => (h.evaluable e he).1 heq.symm
  · constructor
    · intro heq
      exact h.plan_unique (Option.some.inj heq ▸ hid) he
    · rintro rfl
      exact congrArg some (h.node_unique hid he)

/-- A node for one step more, given the edge into it. -/
theorem Covering.addBeta {done : List PlanStep} {current : Option BetaId} {bound : List Variable}
    (hc : net.Covering done current bound) (h : net.Wired) {step : PlanStep} {node : BetaNode}
    {edge : Option (AlphaId × AlphaEdge)}
    (hedge : ∀ e ∈ edge, net.alphaKey? e.1 = some (AlphaKey.of e.2.pattern))
    (hevaluable : Evaluable net.builtins (done ++ [step]))
    (hnew : ∀ e ∈ net.planIndex, e.1 ≠ done ++ [step])
    (hinto : edgeInto? (done ++ [step], ⟨net.betas.length⟩) = edge.map Prod.snd)
    (hinputs : (net.addBeta edge current node (done ++ [step])).Inputs ⟨net.betas.length⟩
      node.clear (done ++ [step]))
    (hsuccessors : node.successors = []) (hproductions : node.productions = []) :
    (net.addBeta edge current node (done ++ [step])).Wired where
  alpha := h.alpha.addBeta hedge
  beta := h.beta.addBeta (fun e he => mem_alphaIds_of_key (hedge e he)) (hc.parent h.beta step) hnew
    ⟨by simp, hevaluable⟩ hinto hinputs hsuccessors
  production := h.production.addBeta h.beta hproductions

theorem boundVars_snoc {r : Registry} {done : List PlanStep} {step : PlanStep}
    (h : Evaluable r (done ++ [step])) (v : Variable) :
    v ∈ r.boundVars (PlanStep.atoms (done ++ [step])) ↔
      v ∈ r.boundVars (PlanStep.atoms done) ∨ ∃ t, step = .pattern t ∧ v ∈ t.vars := by
  have hlast := h.of_snoc.2
  cases step with
  | pattern t =>
    rw [Evaluable.boundVars_snoc_pattern hlast, List.mem_append]
    simp
  | builtin t =>
    rw [Evaluable.boundVars_snoc_builtin hlast.1]
    simp

/-- The node that a step adds, and the edge into it. -/
structure Added (net : Network) (done : List PlanStep) (current : Option BetaId) (step : PlanStep)
    (edge : Option (AlphaId × AlphaEdge)) (node : BetaNode) : Prop where
  wired : (net.addBeta edge current node (done ++ [step])).Wired
  left : node.leftMemory = []
  right : node.rightMemory = []
  bound : ∀ v, v ∈ node.outputVars ↔
    v ∈ net.builtins.boundVars (PlanStep.atoms (done ++ [step]))

/-- Attaching a step adds its node. -/
def Attaches (net : Network) (done : List PlanStep) (current : Option BetaId)
    (bound : List Variable) (step : PlanStep) (attachment : Attachment) : Prop :=
  ∃ attached edge node, net.attach current bound attachment = some (attached, node) ∧
    ({ attached with
      betas := attached.betas ++ [node]
      planIndex := attached.planIndex ++ [(done ++ [step], ⟨attached.betas.length⟩)] } : Network) =
        net.addBeta edge current node (done ++ [step]) ∧
    attached.betas.length = net.betas.length ∧ net.Added done current step edge node

section
variable {done : List PlanStep} {bound : List Variable} {a : AlphaId} {parent : BetaId} {t : Triple}

theorem attach_root (h : net.Wired) (hc : net.Covering [] none bound)
    (hkey : net.alphaKey? a = some (AlphaKey.of t)) (hevaluable : Evaluable net.builtins [.pattern t])
    (hnew : ∀ e ∈ net.planIndex, e.1 ≠ [.pattern t]) :
    net.Attaches [] none bound (.pattern t) (.alpha a t) := by
  have hid := mem_alphaIds_of_key hkey
  refine ⟨_, some (a, ⟨⟨net.betas.length⟩, .left, t⟩), _, rfl, rfl, rfl, ?_, rfl, rfl, fun v => ?_⟩
  · refine hc.addBeta h (by simpa using hkey) hevaluable hnew rfl ?_ rfl rfl
    refine .root rfl rfl rfl ?_
    exact (mem_edgesOf_addBeta net _ _ _ _ (by simpa using hid) _ _).mpr (.inr rfl)
  · rw [boundVars_snoc hevaluable]
    simp [Sorted.mem_ofList, PlanStep.atoms, Registry.boundVars, Registry.patterns]

theorem attach_join (h : net.Wired) (hc : net.Covering done (some parent) bound)
    (hparent : (done, parent) ∈ net.planIndex) (hkey : net.alphaKey? a = some (AlphaKey.of t))
    (hevaluable : Evaluable net.builtins (done ++ [.pattern t]))
    (hnew : ∀ e ∈ net.planIndex, e.1 ≠ done ++ [.pattern t]) :
    net.Attaches done (some parent) bound (.pattern t) (.alpha a t) := by
  have hid := mem_alphaIds_of_key hkey
  refine ⟨_, some (a, ⟨⟨net.betas.length⟩, .right, t⟩), _, rfl, ?_, ?_, ?_, rfl, rfl, fun v => ?_⟩
  · simp [addBeta, addEdge, addSuccessor]
  · simp [addEdge, addSuccessor]
  · refine hc.addBeta h (by simpa using hkey) hevaluable hnew ?_ ?_ rfl rfl
    · have hlength : (done ++ [PlanStep.pattern t]).length ≠ 1 := by
        simpa using (h.beta.evaluable _ hparent).1
      rw [edgeInto?, List.getLast?_concat, if_neg hlength]
      rfl
    · refine .join (List.mem_append_left _ hparent) rfl rfl (fun v => ?_) ?_
      · show v ∈ (Sorted.ofList t.vars).filter bound.contains ↔ _
        rw [List.mem_filter, Sorted.mem_ofList, List.contains_iff_mem, hc.bound]
        rfl
      · exact (mem_edgesOf_addBeta net _ _ _ _ (by simpa using hid) _ _).mpr (.inr rfl)
  · rw [boundVars_snoc hevaluable]
    simp [Sorted.mem_ofList, hc.bound, or_comm]

theorem attach_test (h : net.Wired) (hc : net.Covering done (some parent) bound)
    (hparent : (done, parent) ∈ net.planIndex)
    (hevaluable : Evaluable net.builtins (done ++ [.builtin t]))
    (hnew : ∀ e ∈ net.planIndex, e.1 ≠ done ++ [.builtin t]) :
    net.Attaches done (some parent) bound (.builtin t) (.builtin t) := by
  refine ⟨_, none, _, rfl, ?_, ?_, ?_, rfl, rfl, fun v => ?_⟩
  · simp [addBeta, addSuccessor]
  · simp [addSuccessor]
  · refine hc.addBeta h (by simp) hevaluable hnew ?_ ?_ rfl rfl
    · rw [edgeInto?, List.getLast?_concat]
      rfl
    · exact .test (List.mem_append_left _ hparent) rfl rfl rfl
  · rw [boundVars_snoc hevaluable]
    simp [Sorted.mem_ofList, hc.bound]

end

/-- Attaching one step adds the node of its plan. -/
theorem attach_spec (h : net.Wired) {done : List PlanStep} {current : Option BetaId}
    {bound : List Variable} (hc : net.Covering done current bound) {step : PlanStep}
    {attachment : Attachment} (hattached : net.Attached (step, attachment))
    (hevaluable : Evaluable net.builtins (done ++ [step]))
    (hnew : ∀ e ∈ net.planIndex, e.1 ≠ done ++ [step]) :
    net.Attaches done current bound step attachment := by
  cases step with
  | pattern t =>
    cases attachment with
    | builtin u => cases hattached
    | alpha a u =>
      obtain ⟨rfl, hkey⟩ := hattached
      rcases hc.node with ⟨rfl, rfl⟩ | ⟨parent, rfl, hparent⟩
      · exact attach_root h hc hkey hevaluable hnew
      · exact attach_join h hc hparent hkey hevaluable hnew
  | builtin t =>
    cases attachment with
    | alpha a u => cases hattached
    | builtin u =>
      cases hattached
      rcases hc.node with ⟨rfl, rfl⟩ | ⟨parent, rfl, hparent⟩
      · rcases hevaluable.starts_with_pattern with hnil | ⟨_, _, hstart⟩
        · cases hnil
        · cases hstart
      · exact attach_test h hc hparent hevaluable hnew

/-- No node covers more than the steps done. -/
def Uncovered (net : Network) (done rest : List PlanStep) : Prop :=
  ∀ pre, pre ≠ [] → pre <+: rest → ∀ e ∈ net.planIndex, e.1 ≠ done ++ pre

theorem Attached.addBeta {e : PlanStep × Attachment} (h : net.Attached e)
    (edge : Option (AlphaId × AlphaEdge)) (parent : Option BetaId) (node : BetaNode)
    (steps : List PlanStep) : (net.addBeta edge parent node steps).Attached e := by
  unfold Attached at h ⊢
  split
  · rw [alphaKey?_addBeta]
    exact h
  · exact h
  · rename_i hpattern hbuiltin
    split at h
    · exact absurd rfl (hpattern _ _ _)
    · exact absurd rfl (hbuiltin _ _)
    · exact h

theorem Uncovered.addBeta {done rest : List PlanStep} {step : PlanStep}
    (h : net.Uncovered done (step :: rest)) (edge : Option (AlphaId × AlphaEdge))
    (parent : Option BetaId) (node : BetaNode) :
    (net.addBeta edge parent node (done ++ [step])).Uncovered (done ++ [step]) rest := by
  intro pre hpre hprefix e he
  rcases List.mem_append.mp he with he | he
  · rw [← List.append_cons]
    exact h (step :: pre) (by simp) (List.cons_prefix_cons.mpr ⟨rfl, hprefix⟩) e he
  · rw [List.mem_singleton.mp he]
    simpa using hpre

theorem attachAll_spec {rest : List (PlanStep × Attachment)} {done : List PlanStep}
    {current : Option BetaId} {bound : List Variable} (h : net.Wired)
    (hc : net.Covering done current bound)
    (hevaluable : Evaluable net.builtins (done ++ rest.map Prod.fst))
    (hattached : ∀ e ∈ rest, net.Attached e) (hnew : net.Uncovered done (rest.map Prod.fst)) :
    (attachAll done current bound rest net).1.Wired ∧
      Extends net (attachAll done current bound rest net).1 ∧
      SameRules net (attachAll done current bound rest net).1 ∧
      ∃ bound', (attachAll done current bound rest net).1.Covering (done ++ rest.map Prod.fst)
        (attachAll done current bound rest net).2 bound' := by
  induction rest generalizing net done current bound with
  | nil =>
    rw [attachAll, List.map_nil, List.append_nil]
    exact ⟨h, .refl net, ⟨rfl, rfl, rfl⟩, bound, hc⟩
  | cons first rest ih =>
    obtain ⟨step, attachment⟩ := first
    rw [List.map_cons, List.append_cons] at hevaluable
    have hstep : ∀ e ∈ net.planIndex, e.1 ≠ done ++ [step] :=
      hnew [step] (by simp) (by simp)
    obtain ⟨attached, edge, node, hattach, heq, hlength, hadded⟩ :=
      attach_spec h hc (hattached _ (List.mem_cons_self ..)) hevaluable.of_append hstep
    rw [attachAll, hattach]
    dsimp only
    rw [heq, hlength]
    have hextends : Extends net (net.addBeta edge current node (done ++ [step])) :=
      .addBeta net edge current _ hadded.left hadded.right
    have hcovering : (net.addBeta edge current node (done ++ [step])).Covering (done ++ [step])
        (some ⟨net.betas.length⟩) node.outputVars :=
      ⟨.inr ⟨_, rfl, List.mem_append_right _ (List.mem_singleton.mpr rfl)⟩, hadded.bound⟩
    have hrest : ∀ e ∈ rest, (net.addBeta edge current node (done ++ [step])).Attached e :=
      fun e he => (hattached e (List.mem_cons_of_mem _ he)).addBeta edge current node _
    obtain ⟨hwired, hextends', hsame, hfinal⟩ :=
      ih hadded.wired hcovering hevaluable hrest (hnew.addBeta edge current node)
    refine ⟨hwired, hextends.trans hextends', ⟨hsame.productions, hsame.truths,
      hsame.signatureIndex⟩, ?_⟩
    have hsplit : done ++ step :: rest.map Prod.fst = done ++ [step] ++ rest.map Prod.fst :=
      List.append_cons ..
    rw [List.map_cons, hsplit]
    exact hfinal

/-- The longest start that has a node. -/
theorem covered_spec (net : Network) (steps : List PlanStep) (k : Nat) :
    (((net.covered steps k).1 = 0 ∧ (net.covered steps k).2 = none) ∨
      ∃ id, (net.covered steps k).2 = some id ∧
        (steps.take (net.covered steps k).1, id) ∈ net.planIndex) ∧
      ∀ m, (net.covered steps k).1 < m → m ≤ k → ∀ e ∈ net.planIndex, e.1 ≠ steps.take m := by
  induction k with
  | zero => exact ⟨.inl ⟨rfl, rfl⟩, fun m hlt hle => absurd hle (by omega)⟩
  | succ k ih =>
    rw [covered]
    cases hfound : net.planIndex.lookup (steps.take (k + 1)) with
    | some id =>
      obtain ⟨before, after, hsplit, _⟩ := List.lookup_eq_some_iff.mp hfound
      refine ⟨.inr ⟨id, rfl, ?_⟩, fun m hlt hle => absurd hle (by dsimp only at hlt; omega)⟩
      rw [hsplit]
      simp
    | none =>
      dsimp only
      refine ⟨ih.1, fun m hlt hle => ?_⟩
      rcases Nat.lt_or_eq_of_le hle with hle | rfl
      · exact ih.2 m hlt (by omega)
      · intro e he heq
        exact bne_iff_ne.mp (List.lookup_eq_none_iff.mp hfound e he) heq.symm

/-- Behind the longest start that has a node no more steps are covered. -/
theorem Uncovered.of_covered {steps : List PlanStep} {start : Nat}
    (h : ∀ m, start < m → m ≤ steps.length → ∀ e ∈ net.planIndex, e.1 ≠ steps.take m) :
    net.Uncovered (steps.take start) (steps.drop start) := by
  intro pre hpre hprefix e he
  have hpre' : pre = (steps.drop start).take pre.length := List.prefix_iff_eq_take.mp hprefix
  have htake : steps.take start ++ pre = steps.take (start + pre.length) := by
    rw [List.take_add, ← hpre']
  have hle : pre.length ≤ steps.length - start := List.length_drop .. ▸ hprefix.length_le
  have hpos := List.length_pos_iff.mpr hpre
  rw [htake]
  exact h _ (by omega) (by omega) e he

/-- A plan that can be evaluated is attached from its longest covered start on. -/
theorem attachPlan_eq (h : net.Wired) {steps : List PlanStep}
    (hevaluable : Evaluable net.builtins steps) :
    ∃ done current rest, done ++ rest.map Prod.fst = steps ∧
      net.attachPlan steps = attachAll done current
        (Sorted.ofList ((done.filterMap PlanStep.pattern?).flatMap Triple.vars)) rest
        (net.attachments (rest.map Prod.fst)).1 ∧
      (net.attachments (rest.map Prod.fst)).1.Covering done current
        (Sorted.ofList ((done.filterMap PlanStep.pattern?).flatMap Triple.vars)) ∧
      (∀ e ∈ rest, (net.attachments (rest.map Prod.fst)).1.Attached e) ∧
      (net.attachments (rest.map Prod.fst)).1.Uncovered done (rest.map Prod.fst) := by
  obtain ⟨hcovered, hlongest⟩ := covered_spec net steps steps.length
  obtain ⟨start, current, hstart⟩ : ∃ start current,
      net.covered steps steps.length = (start, current) := ⟨_, _, rfl⟩
  rw [hstart] at hcovered hlongest
  dsimp only at hcovered hlongest
  obtain ⟨_, hextends, _, hindex, _, hlength, hattached⟩ := attachments_spec h (steps.drop start)
  have hzip : ((steps.drop start).zip (net.attachments (steps.drop start)).2).map Prod.fst =
      steps.drop start := List.map_fst_zip (Nat.le_of_eq hlength.symm)
  refine ⟨steps.take start, current, (steps.drop start).zip (net.attachments (steps.drop start)).2,
    ?_, ?_, ?_, ?_, ?_⟩
  · rw [hzip, List.take_append_drop]
  · rw [hzip, attachPlan, hstart]
  · rw [hzip]
    have hdone : Evaluable net.builtins (steps.take start) := by
      rw [← List.take_append_drop start steps] at hevaluable
      exact hevaluable.of_append
    refine ⟨?_, fun v => ?_⟩
    · rw [hindex]
      refine hcovered.imp_left ?_
      rintro ⟨rfl, rfl⟩
      exact ⟨List.take_zero .., rfl⟩
    · rw [Sorted.mem_ofList, hextends.builtins, hdone.boundVars_eq]
  · rw [hzip]
    exact hattached
  · rw [hzip]
    refine .of_covered fun m hlt hle e he => ?_
    rw [hindex] at he
    exact hlongest m hlt hle e he

/-- Every plan that can be evaluated gets a node. -/
theorem attachPlan_spec (h : net.Wired) {steps : List PlanStep} (hsteps : steps ≠ [])
    (hevaluable : Evaluable net.builtins steps) :
    (net.attachPlan steps).1.Wired ∧ Extends net (net.attachPlan steps).1 ∧
      SameRules net (net.attachPlan steps).1 ∧
      ∃ id, (net.attachPlan steps).2 = some id ∧
        (steps, id) ∈ (net.attachPlan steps).1.planIndex := by
  obtain ⟨done, current, rest, hall, heq, hcovering, hattached, huncovered⟩ :=
    attachPlan_eq h hevaluable
  obtain ⟨hwired, hextends, hsame, _⟩ := attachments_spec h (rest.map Prod.fst)
  have hgoal := attachAll_spec hwired hcovering (by rw [hall, hextends.builtins]; exact hevaluable)
    hattached huncovered
  rw [hall, ← heq] at hgoal
  obtain ⟨hwired', hextends', hsame', bound, hfinal⟩ := hgoal
  refine ⟨hwired', hextends.trans hextends', hsame.trans hsame', ?_⟩
  rcases hfinal.node with ⟨hnil, _⟩ | hnode
  · exact absurd hnil hsteps
  · exact hnode

/-- What is left of a network without its nodes. -/
def bare (net : Network) : Network :=
  { net with
    alphas := []
    betas := []
    alphaIndex := []
    predicateIndex := []
    wildcards := []
    planIndex := [] }

theorem bare_alphaFor (net : Network) (t : Triple) : (net.alphaFor t).1.bare = net.bare := by
  unfold alphaFor
  dsimp only
  split
  · rfl
  · split <;> rfl

theorem bare_attachments (net : Network) (steps : List PlanStep) :
    (net.attachments steps).1.bare = net.bare := by
  induction steps generalizing net with
  | nil => rfl
  | cons step rest ih =>
    cases step with
    | pattern t => exact (ih (net.alphaFor t).1).trans (bare_alphaFor net t)
    | builtin t => exact ih net

theorem bare_attach {parent : Option BetaId} {bound : List Variable} {attachment : Attachment}
    {node : BetaNode} (h : net.attach parent bound attachment = some (net', node)) :
    net'.bare = net.bare := by
  unfold attach at h
  split at h
  · dsimp only at h
    split at h <;> cases h <;> rfl
  · split at h <;> cases h
    rfl

theorem bare_attachAll (done : List PlanStep) (current : Option BetaId) (bound : List Variable)
    (rest : List (PlanStep × Attachment)) (net : Network) :
    (attachAll done current bound rest net).1.bare = net.bare := by
  induction rest generalizing done current bound net with
  | nil => rfl
  | cons e rest ih =>
    rw [attachAll]
    split
    · rfl
    · rename_i grown node hattach
      have hsame := bare_attach hattach
      exact (ih ..).trans hsame

/-- Attaching a plan changes nodes only, in any network. -/
theorem bare_attachPlan (net : Network) (steps : List PlanStep) :
    (net.attachPlan steps).1.bare = net.bare :=
  (bare_attachAll ..).trans (bare_attachments ..)

/-- Behind a node every step can be attached. -/
theorem attachAll_isSome (done : List PlanStep) (parent : BetaId) (bound : List Variable)
    (rest : List (PlanStep × Attachment)) (net : Network) :
    (attachAll done (some parent) bound rest net).2.isSome := by
  induction rest generalizing done parent bound net with
  | nil => rfl
  | cons e rest ih =>
    obtain ⟨step, attachment⟩ := e
    cases attachment <;> exact ih ..

/-- In any network a plan that starts with a pattern is attached. -/
theorem attachPlan_isSome (net : Network) {r : Registry} {steps : List PlanStep}
    (hsteps : steps ≠ []) (h : Evaluable r steps) : (net.attachPlan steps).2.isSome := by
  obtain ⟨hcovered, _⟩ := covered_spec net steps steps.length
  obtain ⟨start, current, hstart⟩ : ∃ start current,
      net.covered steps steps.length = (start, current) := ⟨_, _, rfl⟩
  rw [hstart] at hcovered
  rw [attachPlan, hstart]
  rcases hcovered with ⟨rfl, rfl⟩ | ⟨parent, rfl, _⟩
  · rcases h.starts_with_pattern with hnil | ⟨t, rest, rfl⟩
    · exact absurd hnil hsteps
    · exact attachAll_isSome ..
  · exact attachAll_isSome ..

/-! ### Rules -/

theorem SameRules.rule? (h : SameRules net net') (id : ProductionId) :
    net'.rule? id = net.rule? id := by
  rw [Network.rule?, production?, h.productions]
  rfl

theorem not_rule?_length (net : Network) : net.rule? ⟨net.productions.length⟩ = none := by
  rw [rule?, production?, List.getElem?_eq_none (Nat.le_refl _)]
  rfl

theorem Extends.addProduction (net : Network) (rule : HornRule) (terminal : Option BetaId) :
    Extends net (net.addProduction rule terminal).1 := by
  have hrules : ∀ id other, net.rule? id = some other →
      (net.addProduction rule terminal).1.rule? id = some other := by
    intro id other hother
    rw [rule?_addProduction, if_neg, hother]
    rintro rfl
    rw [not_rule?_length] at hother
    cases hother
  have hempty : (∀ node ∈ net.betas, node.leftMemory = [] ∧ node.rightMemory = []) →
      ∀ node ∈ (net.addProduction rule terminal).1.betas,
        node.leftMemory = [] ∧ node.rightMemory = [] := by
    intro hempty node hnode
    rw [addProduction_eq] at hnode
    cases terminal with
    | none => exact hempty node hnode
    | some beta =>
      obtain ⟨n, hn⟩ := List.mem_iff_getElem?.mp hnode
      rw [List.getElem?_modify] at hn
      obtain ⟨before, hbefore, heq⟩ := Option.map_eq_some_iff.mp hn
      have hmem := hempty before (List.mem_of_getElem? hbefore)
      split at heq <;> (rw [← heq]; exact hmem)
  rw [addProduction_eq] at hrules hempty ⊢
  exact ⟨rfl, rfl, rfl, rfl, rfl, rfl, rfl, rfl, hrules, hempty⟩

/-- A rule that holds unconditionally is one whose plan has no steps. -/
theorem Wired.terminal?_eq_none_iff (h : net.Wired) {id : ProductionId} {rule : HornRule}
    (hrule : net.rule? id = some rule) :
    net.terminal? id = some none ↔ plan net.builtins rule.body = .ok [] := by
  obtain ⟨_, steps, hplan, ⟨rfl, hnone⟩ | ⟨terminal, he, hterminal⟩⟩ :=
    h.production.planned id rule hrule
  · exact iff_of_true hnone hplan
  · refine iff_of_false (fun hnone => ?_) fun hnil => ?_
    · rw [hnone] at hterminal
      cases hterminal
    · cases hplan.symm.trans hnil
      exact (h.beta.evaluable _ he).1 rfl

/-- What compiling a rule can come to. -/
inductive Compiles (net : Network) (rule : HornRule) : Network × RuleOutcome → Prop where
  | dropped {fault : RuleFault} :
      rule.head = [] ∧ fault = .emptyHead ∨ plan net.builtins rule.body = .error fault →
      Compiles net rule (net, .dropped ⟨rule.label, fault.message⟩)
  | duplicate {steps : List PlanStep} {id : ProductionId} : rule.head ≠ [] →
      plan net.builtins rule.body = .ok steps → net.signatureIndex.lookup (.of rule) = some id →
      Compiles net rule (net, .duplicate id)
  | truth : rule.head ≠ [] → plan net.builtins rule.body = .ok [] →
      net.signatureIndex.lookup (.of rule) = none →
      Compiles net rule ((net.addProduction rule none).1, .added (net.addProduction rule none).2)
  | conditional {steps : List PlanStep} {grown : Network} {beta : BetaId} : rule.head ≠ [] →
      plan net.builtins rule.body = .ok steps → net.signatureIndex.lookup (.of rule) = none →
      steps ≠ [] → net.attachPlan steps = (grown, some beta) →
      Compiles net rule ((grown.addProduction rule (some beta)).1,
        .added (grown.addProduction rule (some beta)).2)

theorem compile_compiles (net : Network) (rule : HornRule) :
    Compiles net rule (net.compile rule) := by
  unfold compile
  dsimp only
  split
  · rename_i hhead
    exact .dropped (.inl ⟨List.isEmpty_iff.mp hhead, rfl⟩)
  · rename_i hhead
    have hhead : rule.head ≠ [] := fun hnil => hhead (List.isEmpty_iff.mpr hnil)
    split
    · rename_i fault hplan
      exact .dropped (.inr hplan)
    · rename_i steps hplan
      split
      · rename_i id hfound
        exact .duplicate hhead hplan hfound
      · rename_i hnew
        split
        · rename_i hempty
          rw [List.isEmpty_iff.mp hempty] at hplan
          exact .truth hhead hplan hnew
        · rename_i hsteps
          have hsteps : steps ≠ [] := fun hnil => hsteps (List.isEmpty_iff.mpr hnil)
          have hattached := attachPlan_isSome net hsteps (evaluable_of_plan hplan)
          split
          · rename_i grown hattach
            rw [hattach] at hattached
            cases hattached
          · rename_i grown beta hattach
            exact .conditional hhead hplan hnew hsteps hattach

/-- What is left of a network without its nodes and rules. -/
def contents (net : Network) : Network :=
  { net.bare with productions := [], signatureIndex := [], truths := [] }

/-- Compiling changes nodes and rules only, in any network. -/
theorem contents_compile (net : Network) (rule : HornRule) :
    (net.compile rule).1.contents = net.contents := by
  have hcompiles := net.compile_compiles rule
  generalize net.compile rule = out at hcompiles
  cases hcompiles with
  | dropped | duplicate => rfl
  | truth => rw [addProduction_eq]; rfl
  | @conditional steps grown beta _ _ _ _ hattach =>
    have hbare := net.bare_attachPlan steps
    rw [hattach] at hbare
    have hgrown : grown.contents = net.contents :=
      congrArg (fun other : Network =>
        { other with productions := [], signatureIndex := [], truths := [] }) hbare
    rw [addProduction_eq]
    exact hgrown

theorem contents_compileAll (net : Network) (report : BuildReport) (rules : List HornRule) :
    (net.compileAll report rules).1.contents = net.contents := by
  induction rules generalizing net report with
  | nil => rfl
  | cons rule rest ih => exact (ih ..).trans (contents_compile net rule)

/-- What compiling does: `kept` are the rules that are not dropped and `added` the new
productions. -/
structure Compiled (net net' : Network) (kept : List HornRule) (added : List ProductionId) :
    Prop where
  wired : net'.Wired
  grown : Extends net net'
  truths : ∀ id ∈ net'.truths, id ∈ net.truths ∨ id ∈ added
  rules : ∀ id rule, net'.rule? id = some rule → net.rule? id = some rule ∨ rule ∈ kept
  exist : ∀ id ∈ added, ∃ rule, net'.rule? id = some rule
  /-- New productions come last and have not fired. -/
  productions : ∃ more, net'.productions = net.productions ++ more ∧ (∀ p ∈ more, p.fired = 0) ∧
    added = (List.range' net.productions.length more.length).map ProductionId.mk
  /-- A rule that is kept is that of a production, up to the order of its atoms. -/
  found : ∀ rule ∈ kept, (∃ id other, net'.rule? id = some other ∧
    RuleSignature.of other = RuleSignature.of rule) ∧ ∃ steps, plan net.builtins rule.body = .ok steps
  /-- Nodes are added for a rule with conditions only. -/
  quiet : (∀ id ∈ added, net'.terminal? id = some none) →
    net'.alphas = net.alphas ∧ net'.betas = net.betas

theorem Compiled.refl (h : net.Wired) : Compiled net net [] [] :=
  ⟨h, .refl net, fun _ hid => .inl hid, fun _ _ hr => .inl hr, by simp, ⟨[], by simp⟩, by simp,
    fun _ => ⟨rfl, rfl⟩⟩

theorem Compiled.trans {net'' : Network} {kept kept' : List HornRule} {added added' : List ProductionId}
    (h : Compiled net net' kept added) (h' : Compiled net' net'' kept' added') :
    Compiled net net'' (kept ++ kept') (added ++ added') := by
  refine ⟨h'.wired, h.grown.trans h'.grown, fun id hid => ?_, fun id rule hrule => ?_,
    fun id hid => ?_, ?_, fun rule hrule => ?_, fun hnone => ?_⟩
  · rcases h'.truths id hid with hid | hid
    · exact (h.truths id hid).imp_right (List.mem_append_left _)
    · exact .inr (List.mem_append_right _ hid)
  · rcases h'.rules id rule hrule with hrule | hrule
    · exact (h.rules id rule hrule).imp_right (List.mem_append_left _)
    · exact .inr (List.mem_append_right _ hrule)
  · rcases List.mem_append.mp hid with hid | hid
    · obtain ⟨rule, hrule⟩ := h.exist id hid
      exact ⟨rule, h'.grown.rules id rule hrule⟩
    · exact h'.exist id hid
  · obtain ⟨more, hmore, hfresh, rfl⟩ := h.productions
    obtain ⟨more', hmore', hfresh', rfl⟩ := h'.productions
    refine ⟨more ++ more', ?_, fun p hp => ?_, ?_⟩
    · rw [hmore', hmore, List.append_assoc]
    · exact (List.mem_append.mp hp).elim (hfresh p) (hfresh' p)
    · rw [hmore, List.length_append, List.length_append, ← List.map_append,
        List.range'_append_1]
  · rcases List.mem_append.mp hrule with hrule | hrule
    · obtain ⟨⟨id, other, hother, hsig⟩, hplan⟩ := h.found rule hrule
      exact ⟨⟨id, other, h'.grown.rules id other hother, hsig⟩, hplan⟩
    · have hkept := h'.found rule hrule
      rw [h.grown.builtins] at hkept
      exact hkept
  · obtain ⟨halphas, hbetas⟩ := h'.quiet fun id hid => hnone id (List.mem_append_right _ hid)
    obtain ⟨halphas', hbetas'⟩ := h.quiet fun id hid => by
      obtain ⟨rule, hrule⟩ := h.exist id hid
      have hfinal := hnone id (List.mem_append_left _ hid)
      rw [h'.wired.terminal?_eq_none_iff (h'.grown.rules id rule hrule), h'.grown.builtins] at hfinal
      exact (h.wired.terminal?_eq_none_iff hrule).mpr hfinal
    exact ⟨halphas.trans halphas', hbetas.trans hbetas'⟩

/-- The rule, unless it was dropped. -/
def RuleOutcome.kept (rule : HornRule) : RuleOutcome → List HornRule
  | .dropped _ => []
  | _ => [rule]

/-- The production that was added, if any. -/
def RuleOutcome.ids : RuleOutcome → List ProductionId
  | .added id => [id]
  | _ => []

theorem BuildReport.added_record (report : BuildReport) (outcome : RuleOutcome) :
    (report.record outcome).added = report.added ++ outcome.ids := by
  cases outcome <;> simp [record, RuleOutcome.ids]

/-- A rule that becomes a production of a network with the rules of `net`. -/
theorem compiled_added {grown : Network} (hwired : grown.Wired) (hextends : Extends net grown)
    (hsame : SameRules net grown) {rule : HornRule} (hhead : rule.head ≠ [])
    {terminal : Option BetaId} {steps : List PlanStep}
    (hplan : plan net.builtins rule.body = .ok steps)
    (hterminal : (steps = [] ∧ terminal = none) ∨
      ∃ beta, (steps, beta) ∈ grown.planIndex ∧ terminal = some beta)
    (hquiet : terminal = none → grown = net) :
    Compiled net (grown.addProduction rule terminal).1 [rule]
      [(grown.addProduction rule terminal).2] := by
  have hplan' : plan grown.builtins rule.body = .ok steps := hextends.builtins ▸ hplan
  have hid : (grown.addProduction rule terminal).2 = ⟨grown.productions.length⟩ := by
    rw [addProduction_eq]
  have hnew : (grown.addProduction rule terminal).1.rule? ⟨grown.productions.length⟩ = some rule := by
    rw [rule?_addProduction, if_pos rfl]
  rw [hid]
  refine ⟨hwired.addProduction hhead ⟨steps, hplan', hterminal⟩,
    hextends.trans (.addProduction grown rule terminal), fun id hin => ?_, fun id other hother => ?_,
    fun id hin => ⟨rule, List.mem_singleton.mp hin ▸ hnew⟩, ?_, fun other hother => ?_,
    fun hnone => ?_⟩
  · rw [addProduction_eq] at hin
    cases terminal with
    | none =>
      rcases List.mem_append.mp hin with hin | hin
      · exact .inl (hsame.truths ▸ hin)
      · exact .inr hin
    | some beta => exact .inl (hsame.truths ▸ hin)
  · rw [rule?_addProduction] at hother
    split at hother
    · cases hother
      exact .inr (List.mem_singleton.mpr rfl)
    · rw [hsame.rule?] at hother
      exact .inl hother
  · refine ⟨[{ rule := rule, terminal := terminal }], ?_, by simp, ?_⟩
    · rw [addProduction_eq, hsame.productions]
    · rw [hsame.productions]
      rfl
  · rw [List.mem_singleton.mp hother]
    exact ⟨⟨_, rule, hnew, rfl⟩, steps, hplan⟩
  · have hfinal := hnone _ (List.mem_singleton.mpr rfl)
    rw [terminal?_addProduction, if_pos rfl] at hfinal
    cases hfinal
    rw [hquiet rfl, addProduction_eq]
    exact ⟨rfl, rfl⟩

/-- **Compiling a rule keeps the network wired, and the outcome says what became of it.** -/
theorem compile_spec (h : net.Wired) (rule : HornRule) :
    Compiled net (net.compile rule).1 ((net.compile rule).2.kept rule) (net.compile rule).2.ids := by
  have hcompiles := net.compile_compiles rule
  generalize net.compile rule = out at hcompiles
  cases hcompiles with
  | dropped => exact .refl h
  | @duplicate steps id hhead hplan hfound =>
    obtain ⟨found, hrule, hsig⟩ := Option.map_eq_some_iff.mp (h.production.signed _ id hfound)
    refine ⟨h, .refl net, fun _ hid => .inl hid, fun _ _ hr => .inl hr, by simp [RuleOutcome.ids],
      ⟨[], by simp [RuleOutcome.ids]⟩, fun other hother => ?_, fun _ => ⟨rfl, rfl⟩⟩
    rw [List.mem_singleton.mp hother]
    exact ⟨⟨id, found, hrule, hsig⟩, steps, hplan⟩
  | truth hhead hplan =>
    exact compiled_added h (.refl net) ⟨rfl, rfl, rfl⟩ hhead hplan (.inl ⟨rfl, rfl⟩) fun _ => rfl
  | @conditional steps grown beta hhead hplan hnew hsteps hattach =>
    obtain ⟨hwired, hextends, hsame, terminal, hterminal, hindex⟩ :=
      attachPlan_spec h hsteps (evaluable_of_plan hplan)
    rw [hattach] at hwired hextends hsame hterminal hindex
    cases hterminal
    exact compiled_added hwired hextends hsame hhead hplan (.inr ⟨_, hindex, rfl⟩)
      fun hnone => by cases hnone

/-- The rules of a batch that are not dropped. -/
def keptRules (net : Network) : List HornRule → List HornRule
  | [] => []
  | rule :: rest => (net.compile rule).2.kept rule ++ (net.compile rule).1.keptRules rest

theorem keptRules_subset (net : Network) (rules : List HornRule) : net.keptRules rules ⊆ rules := by
  induction rules generalizing net with
  | nil => exact List.Subset.refl _
  | cons rule rest ih =>
    intro other hother
    rcases List.mem_append.mp hother with hother | hother
    · cases hout : (net.compile rule).2 with
      | added id | duplicate id =>
        rw [hout] at hother
        exact List.mem_singleton.mp hother ▸ List.mem_cons_self ..
      | dropped diagnostic =>
        rw [hout] at hother
        cases hother
    · exact List.mem_cons_of_mem _ (ih _ hother)

theorem compileAll_spec (h : net.Wired) (rules : List HornRule) (report : BuildReport) :
    ∃ added, (net.compileAll report rules).2.added = report.added ++ added ∧
      Compiled net (net.compileAll report rules).1 (net.keptRules rules) added := by
  induction rules generalizing net report with
  | nil => exact ⟨[], (List.append_nil _).symm, .refl h⟩
  | cons rule rest ih =>
    have hfirst := compile_spec h rule
    obtain ⟨added, hadded, hrest⟩ := ih hfirst.wired (report.record (net.compile rule).2)
    refine ⟨(net.compile rule).2.ids ++ added, ?_, hfirst.trans hrest⟩
    rw [← List.append_assoc, ← BuildReport.added_record]
    exact hadded

/-- If no rule is dropped, all are kept. -/
theorem keptRules_of_dropped_eq_nil {rules : List HornRule} {report : BuildReport}
    (h : (net.compileAll report rules).2.dropped = []) :
    report.dropped = [] ∧ net.keptRules rules = rules := by
  induction rules generalizing net report with
  | nil => exact ⟨h, rfl⟩
  | cons rule rest ih =>
    have hdropped : ((net.compile rule).1.compileAll
        (report.record (net.compile rule).2) rest).2.dropped = [] := h
    obtain ⟨hrecord, hrest⟩ := ih hdropped
    rw [keptRules, hrest]
    cases hout : (net.compile rule).2 with
    | added id | duplicate id =>
      rw [hout] at hrecord
      exact ⟨hrecord, rfl⟩
    | dropped diagnostic => simp [hout, BuildReport.record] at hrecord

/-- Rules with a head and a plan are not dropped. -/
theorem dropped_compileAll (h : net.Wired) {rules : List HornRule} (report : BuildReport)
    (hrules : ∀ rule ∈ rules, rule.head ≠ [] ∧ ∃ steps, plan net.builtins rule.body = .ok steps) :
    (net.compileAll report rules).2.dropped = report.dropped := by
  induction rules generalizing net report with
  | nil => rfl
  | cons rule rest ih =>
    obtain ⟨⟨hhead, steps, hplan⟩, hrest⟩ := List.forall_mem_cons.mp hrules
    have hfirst := compile_spec h rule
    rw [← hfirst.grown.builtins] at hrest
    refine (ih hfirst.wired (report.record (net.compile rule).2) hrest).trans ?_
    have hcompiles := net.compile_compiles rule
    generalize net.compile rule = out at hcompiles
    cases hcompiles with
    | dropped hdropped =>
      rcases hdropped with ⟨hnil, _⟩ | hfault
      · exact absurd hnil hhead
      · cases hplan.symm.trans hfault
    | duplicate | truth | conditional => rfl

/-! ### Which rules a network has -/

/-- What decides whether a rule is added. -/
structure Rulebook where
  builtins : Registry
  rules : List HornRule := []
  signatureIndex : List (RuleSignature × ProductionId) := []

/-- A rule with a head and a plan is added unless its signature is known. -/
def Rulebook.add (book : Rulebook) (rule : HornRule) : Rulebook :=
  if rule.head.isEmpty then book
  else
    match plan book.builtins rule.body, book.signatureIndex.lookup (.of rule) with
    | .ok _, none =>
      { book with
        rules := book.rules ++ [rule]
        signatureIndex := book.signatureIndex ++ [(.of rule, ⟨book.rules.length⟩)] }
    | _, _ => book

def rulebook (net : Network) : Rulebook :=
  ⟨net.builtins, net.productions.map Production.rule, net.signatureIndex⟩

theorem rule?_eq_rulebook (net : Network) (id : ProductionId) :
    net.rule? id = net.rulebook.rules[id.index]? := List.getElem?_map.symm

theorem rulebook_addProduction {grown : Network} (hextends : Extends net grown)
    (hsame : SameRules net grown) (rule : HornRule) (terminal : Option BetaId) :
    (grown.addProduction rule terminal).1.rulebook =
      ⟨net.builtins, net.rulebook.rules ++ [rule],
        net.signatureIndex ++ [(.of rule, ⟨net.rulebook.rules.length⟩)]⟩ := by
  simp only [rulebook, addProduction_eq, hextends.builtins, hsame.productions, hsame.signatureIndex,
    List.map_append, List.map_cons, List.map_nil, List.length_map]

/-- What becomes of a rule does not depend on the nodes. -/
theorem rulebook_compile (h : net.Wired) (rule : HornRule) :
    (net.compile rule).1.rulebook = net.rulebook.add rule := by
  unfold compile Rulebook.add
  dsimp only
  split
  · rfl
  · change _ = match plan net.builtins rule.body, net.signatureIndex.lookup (.of rule) with
      | .ok _, none => _
      | _, _ => _
    cases hplan : plan net.builtins rule.body with
    | error fault => rfl
    | ok steps =>
      cases net.signatureIndex.lookup (.of rule) with
      | some id => rfl
      | none =>
        dsimp only
        split
        · exact rulebook_addProduction (.refl net) ⟨rfl, rfl, rfl⟩ rule none
        · rename_i hsteps
          obtain ⟨_, hextends, hsame, terminal, hterminal, _⟩ := attachPlan_spec h
            (fun hnil => hsteps (List.isEmpty_iff.mpr hnil)) (evaluable_of_plan hplan)
          split
          · rename_i grown hattach
            rw [hattach] at hterminal
            cases hterminal
          · rename_i grown beta hattach
            rw [hattach] at hextends hsame
            exact rulebook_addProduction hextends hsame rule (some beta)

theorem rulebook_compileAll (h : net.Wired) (rules : List HornRule) (report : BuildReport) :
    (net.compileAll report rules).1.rulebook = rules.foldl Rulebook.add net.rulebook := by
  induction rules generalizing net report with
  | nil => rfl
  | cons rule rest ih =>
    rw [List.foldl_cons, ← rulebook_compile h rule]
    exact ih (compile_spec h rule).wired _

namespace Rulebook

theorem add_spec (book : Rulebook) (rule : HornRule) :
    (book.add rule).builtins = book.builtins ∧ book.rules <+: (book.add rule).rules ∧
      ∀ sig, RuleSignature.of rule ≠ sig →
        (book.add rule).signatureIndex.lookup sig = book.signatureIndex.lookup sig := by
  unfold add
  split
  · exact ⟨rfl, List.prefix_rfl, fun _ _ => rfl⟩
  · split
    · refine ⟨rfl, List.prefix_append .., fun sig hne => ?_⟩
      have hbeq : (sig == RuleSignature.of rule) = false := beq_eq_false_iff_ne.mpr hne.symm
      simp [List.lookup_append, List.lookup_cons, hbeq]
    · exact ⟨rfl, List.prefix_rfl, fun _ _ => rfl⟩

theorem foldl_add_spec (book : Rulebook) (rules : List HornRule) :
    (rules.foldl add book).builtins = book.builtins ∧ book.rules <+: (rules.foldl add book).rules ∧
      ∀ sig, (∀ rule ∈ rules, RuleSignature.of rule ≠ sig) →
        (rules.foldl add book).signatureIndex.lookup sig = book.signatureIndex.lookup sig := by
  induction rules generalizing book with
  | nil => exact ⟨rfl, List.prefix_rfl, fun _ _ => rfl⟩
  | cons rule rest ih =>
    obtain ⟨hbuiltins, hprefix, hlookup⟩ := book.add_spec rule
    obtain ⟨hbuiltins', hprefix', hlookup'⟩ := ih (book.add rule)
    refine ⟨hbuiltins'.trans hbuiltins, hprefix.trans hprefix', fun sig hne => ?_⟩
    obtain ⟨hfirst, hrest⟩ := List.forall_mem_cons.mp hne
    exact (hlookup' sig hrest).trans (hlookup sig hfirst)

/-- A rule with a head and a plan whose signature is new is kept as it is. -/
theorem mem_foldl_add {builtins : Registry} {rule : HornRule} (hhead : rule.head ≠ [])
    (hplan : ∃ steps, plan builtins rule.body = .ok steps) {before : List HornRule}
    (hnew : ∀ other ∈ before, RuleSignature.of other ≠ RuleSignature.of rule)
    (after : List HornRule) :
    rule ∈ ((before ++ rule :: after).foldl add ⟨builtins, [], []⟩).rules := by
  obtain ⟨hbuiltins, _, hlookup⟩ := foldl_add_spec ⟨builtins, [], []⟩ before
  rw [List.foldl_append, List.foldl_cons]
  obtain ⟨_, hprefix, _⟩ := (add (before.foldl add ⟨builtins, [], []⟩) rule).foldl_add_spec after
  refine hprefix.subset ?_
  obtain ⟨steps, hsteps⟩ := hplan
  rw [add, if_neg (by simpa using hhead), hbuiltins, hsteps, hlookup _ hnew]
  simp

end Rulebook

end Network

end HornReasoner
