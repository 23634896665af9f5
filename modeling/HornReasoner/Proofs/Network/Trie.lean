import HornReasoner.Proofs.Network.History

/-! A network is the trie of its plans.

Compiling shares what is there: an alpha node for each key of a pattern, a beta node for
each start of a plan. `Wired` says that the nodes are connected as their plans are; `Tight`
adds that every node is one that some plan needs. What is grown for one plan keeps both,
so a network has the nodes of its productions' plans, each once, and no others
(`History.trie`). -/
namespace HornReasoner

namespace PlanStep

/-- The variables of the patterns among the steps. -/
def patternVars (steps : List PlanStep) : List Variable :=
  (steps.filterMap pattern?).flatMap Triple.vars

/-- The variables that the pattern of the last step shares with the patterns before it, in
order. A test shares none. -/
def sharedVars (steps : List PlanStep) : List Variable :=
  match steps.getLast?.bind pattern? with
  | some t => Sorted.ofList (t.vars.filter (patternVars steps.dropLast).contains)
  | none => []

variable {done : List PlanStep} {t : Triple}

theorem patternVars_snoc_pattern : patternVars (done ++ [.pattern t]) = patternVars done ++ t.vars := by
  simp [patternVars, pattern?]

theorem patternVars_snoc_builtin : patternVars (done ++ [.builtin t]) = patternVars done := by
  simp [patternVars, pattern?]

theorem sharedVars_snoc_pattern : sharedVars (done ++ [.pattern t]) =
    Sorted.ofList (t.vars.filter (patternVars done).contains) := by
  simp [sharedVars, pattern?]

theorem sharedVars_snoc_builtin : sharedVars (done ++ [.builtin t]) = [] := by
  simp [sharedVars, pattern?]

end PlanStep

open PlanStep (patternVars sharedVars)

namespace Network

variable {net net' : Network} {P : List PlanStep → Prop}

/-- The steps are the plan of a production. -/
def IsPlan (net : Network) (steps : List PlanStep) : Prop :=
  ∃ id rule, net.rule? id = some rule ∧ plan net.builtins rule.body = .ok steps

/-- Every node is needed for one of the plans `P`, and found where it is needed again. -/
structure Tight (net : Network) (P : List PlanStep → Prop) : Prop where
  known : ∀ id key, net.alphaKey? id = some key → net.alphaIndex.lookup key = some id
  listed : (net.predicateIndex.items ++ net.wildcards).Perm net.alphaIds
  tested : ∀ id key, net.alphaKey? id = some key →
    ∃ steps t, P steps ∧ .pattern t ∈ steps ∧ AlphaKey.of t = key
  starts : ∀ e ∈ net.planIndex, ∃ whole, P whole ∧ e.1 <+: whole
  older : ∀ id node parent, net.joint? id = some node → node.left = .beta parent →
    parent.index < id.index
  outputs : ∀ e ∈ net.planIndex, ∀ node, net.joint? e.2 = some node →
    node.outputVars = Sorted.ofList (patternVars e.1)
  joins : ∀ e ∈ net.planIndex, ∀ node, net.joint? e.2 = some node →
    node.joinVars = sharedVars e.1

theorem tight_new (builtins : Registry) (options : NetworkOptions) (drawn : String) :
    (Network.new builtins options drawn).Tight P where
  known id key h := by cases h
  listed := .refl _
  tested id key h := by cases h
  starts _ h := absurd h List.not_mem_nil
  older id node parent h := by cases h
  outputs _ h := absurd h List.not_mem_nil
  joins _ h := absurd h List.not_mem_nil

theorem Tight.mono {Q : List PlanStep → Prop} (h : net.Tight P) (hpq : ∀ steps, P steps → Q steps) :
    net.Tight Q where
  known := h.known
  listed := h.listed
  tested id key hkey := by
    obtain ⟨steps, t, hsteps, ht⟩ := h.tested id key hkey
    exact ⟨steps, t, hpq steps hsteps, ht⟩
  starts e he := by
    obtain ⟨whole, hwhole, hprefix⟩ := h.starts e he
    exact ⟨whole, hpq whole hwhole, hprefix⟩
  older := h.older
  outputs := h.outputs
  joins := h.joins

/-- Which nodes there are is a matter of the skeleton. -/
theorem Tight.of_skeleton_eq (h : net.Tight P) (heq : net'.skeleton = net.skeleton) :
    net'.Tight P := by
  have hkey : net'.alphaKey? = net.alphaKey? := by
    funext id
    rw [← alphaKey?_skeleton, heq, alphaKey?_skeleton]
  have hjoint : net'.joint? = net.joint? := by
    funext id
    rw [← joint?_skeleton, heq, joint?_skeleton]
  have hindex : net'.planIndex = net.planIndex := by
    rw [← planIndex_skeleton, heq, planIndex_skeleton]
  refine ⟨?_, ?_, ?_, ?_, ?_, ?_, ?_⟩
  · rw [hkey, ← alphaIndex_skeleton, heq]
    exact h.known
  · rw [← predicateIndex_skeleton, ← wildcards_skeleton, ← alphaIds_skeleton, heq,
      predicateIndex_skeleton, wildcards_skeleton, alphaIds_skeleton]
    exact h.listed
  · rw [hkey]
    exact h.tested
  · rw [hindex]
    exact h.starts
  · rw [hjoint]
    exact h.older
  · rw [hindex, hjoint]
    exact h.outputs
  · rw [hindex, hjoint]
    exact h.joins

/-! ### Growing -/

/-- A new alpha node is one that no pattern before had the key of. -/
theorem Tight.addAlpha (h : net.Tight P) {t : Triple}
    (hnew : net.alphaIndex.lookup (AlphaKey.of t) = none)
    (hneeded : ∃ steps, P steps ∧ .pattern t ∈ steps) : (net.addAlpha t).Tight P where
  known id key hkey := by
    have hindex : (net.addAlpha t).alphaIndex =
        net.alphaIndex ++ [(AlphaKey.of t, ⟨net.alphas.length⟩)] := rfl
    rw [alphaKey?_addAlpha] at hkey
    rw [hindex, List.lookup_append]
    split at hkey
    · rename_i hid
      cases hkey
      rw [hnew, hid]
      simp
    · rw [h.known id key hkey]
      rfl
  listed := by
    rw [alphaIds_addAlpha, Network.addAlpha]
    dsimp only
    split
    · rename_i predicate _
      refine (List.Perm.append_right _ (Buckets.items_add predicate _ _)).trans ?_
      rw [List.append_assoc]
      refine (List.Perm.append_left _ List.perm_append_comm).trans ?_
      rw [← List.append_assoc]
      exact h.listed.append_right _
    · rw [← List.append_assoc]
      exact h.listed.append_right _
  tested id key hkey := by
    rw [alphaKey?_addAlpha] at hkey
    split at hkey
    · cases hkey
      obtain ⟨steps, hsteps, ht⟩ := hneeded
      exact ⟨steps, t, hsteps, ht, rfl⟩
    · exact h.tested id key hkey
  starts := h.starts
  older := h.older
  outputs := h.outputs
  joins := h.joins

theorem Tight.alphaFor (h : net.Tight P) {t : Triple} (hneeded : ∃ steps, P steps ∧ .pattern t ∈ steps) :
    (net.alphaFor t).1.Tight P := by
  cases hfound : net.alphaIndex.lookup (AlphaKey.of t) with
  | some id =>
    rw [alphaFor_of_some net t hfound]
    exact h
  | none =>
    rw [alphaFor_of_none net t hfound]
    exact h.addAlpha hfound hneeded

theorem Tight.attachments (h : net.Tight P) {steps : List PlanStep}
    (hneeded : ∀ t, .pattern t ∈ steps → ∃ whole, P whole ∧ .pattern t ∈ whole) :
    (net.attachments steps).1.Tight P := by
  induction steps generalizing net with
  | nil => exact h
  | cons step rest ih =>
    have hrest : ∀ t, .pattern t ∈ rest → ∃ whole, P whole ∧ .pattern t ∈ whole :=
      fun t ht => hneeded t (List.mem_cons_of_mem _ ht)
    cases step with
    | pattern t => exact ih (h.alphaFor (hneeded t (List.mem_cons_self ..))) hrest
    | builtin t => exact ih h hrest

section
variable {edge : Option (AlphaId × AlphaEdge)} {parent : Option BetaId} {node : BetaNode}
  {steps : List PlanStep}

/-- A node that was there before gets a successor at most. -/
theorem joint?_addBeta_old {id : BetaId} {other : BetaNode} (hne : id ≠ ⟨net.betas.length⟩)
    (h : (net.addBeta edge parent node steps).joint? id = some other) :
    ∃ old, net.joint? id = some old ∧ other.left = old.left ∧ other.joinVars = old.joinVars ∧
      other.outputVars = old.outputVars := by
  rw [joint?_addBeta, if_neg hne] at h
  obtain ⟨old, hold, rfl⟩ := Option.map_eq_some_iff.mp h
  refine ⟨old, hold, ?_⟩
  split <;> exact ⟨rfl, rfl, rfl⟩

theorem joint?_addBeta_new {other : BetaNode}
    (h : (net.addBeta edge parent node steps).joint? ⟨net.betas.length⟩ = some other) :
    other = node.clear := by
  rw [joint?_addBeta, if_pos rfl] at h
  exact (Option.some.inj h).symm

/-- A new beta node is one for a start of a plan, younger than its parent. -/
theorem Tight.addBeta (h : net.Tight P) (hb : net.BetaWired)
    (hstart : ∃ whole, P whole ∧ steps <+: whole)
    (hleft : ∀ p, node.left = .beta p → p ∈ net.betaIds)
    (houtputs : node.outputVars = Sorted.ofList (patternVars steps))
    (hjoins : node.joinVars = sharedVars steps) : (net.addBeta edge parent node steps).Tight P := by
  have hindex : (net.addBeta edge parent node steps).planIndex =
      net.planIndex ++ [(steps, ⟨net.betas.length⟩)] := rfl
  refine ⟨?_, ?_, ?_, ?_, ?_, ?_, ?_⟩
  · intro id key hkey
    rw [alphaKey?_addBeta] at hkey
    exact h.known id key hkey
  · rw [alphaIds_addBeta]
    exact h.listed
  · intro id key hkey
    rw [alphaKey?_addBeta] at hkey
    exact h.tested id key hkey
  · rw [hindex]
    exact List.forall_mem_append.mpr ⟨h.starts, List.forall_mem_singleton.mpr hstart⟩
  · intro id other p hother hp
    by_cases hid : id = ⟨net.betas.length⟩
    · subst hid
      rw [joint?_addBeta_new hother] at hp
      obtain ⟨n, hn, rfl⟩ := List.mem_map.mp (hleft p hp)
      exact List.mem_range.mp hn
    · obtain ⟨old, hold, hsame, _⟩ := joint?_addBeta_old hid hother
      exact h.older id old p hold (hsame ▸ hp)
  · rw [hindex]
    refine List.forall_mem_append.mpr ⟨fun e he other hother => ?_,
      List.forall_mem_singleton.mpr fun other hother => ?_⟩
    · obtain ⟨old, hold, _, _, hsame⟩ := joint?_addBeta_old (hb.ne_length he) hother
      exact hsame.trans (h.outputs e he old hold)
    · rw [joint?_addBeta_new hother]
      exact houtputs
  · rw [hindex]
    refine List.forall_mem_append.mpr ⟨fun e he other hother => ?_,
      List.forall_mem_singleton.mpr fun other hother => ?_⟩
    · obtain ⟨old, hold, _, hsame, _⟩ := joint?_addBeta_old (hb.ne_length he) hother
      exact hsame.trans (h.joins e he old hold)
    · rw [joint?_addBeta_new hother]
      exact hjoins

end

/-! ### Plans -/

/-- The node that a step is attached by stands behind the node before it and has the
variables of its plan. -/
theorem attach_node {done : List PlanStep} {current : Option BetaId} {step : PlanStep}
    {attachment : Attachment} {attached : Network} {node : BetaNode}
    (hc : done = [] ↔ current = none) (hattached : net.Attached (step, attachment))
    (h : net.attach current (Sorted.ofList (patternVars done)) attachment = some (attached, node)) :
    (∀ p, node.left = .beta p → current = some p) ∧
      node.outputVars = Sorted.ofList (patternVars (done ++ [step])) ∧
      node.joinVars = sharedVars (done ++ [step]) := by
  cases step with
  | pattern t =>
    cases attachment with
    | builtin u => cases hattached
    | alpha a u =>
      obtain ⟨rfl, _⟩ := hattached
      rw [PlanStep.patternVars_snoc_pattern, PlanStep.sharedVars_snoc_pattern]
      cases current with
      | none =>
        obtain rfl := hc.mpr rfl
        cases h
        refine ⟨fun p hp => (by cases hp), rfl, ?_⟩
        have hnone : u.vars.filter (patternVars []).contains = [] := by simp [patternVars]
        rw [hnone]
        rfl
      | some parent =>
        cases h
        refine ⟨fun p hp => by cases hp; rfl, Sorted.ofList_congr fun v => ?_, ?_⟩
        · rw [List.mem_append, List.mem_append, Sorted.mem_ofList, Sorted.mem_ofList, or_comm]
        · rw [← Sorted.filter_ofList]
          refine List.filter_congr fun v _ => ?_
          rw [Bool.eq_iff_iff, List.contains_iff_mem, List.contains_iff_mem, Sorted.mem_ofList]
  | builtin t =>
    cases attachment with
    | alpha a u => cases hattached
    | builtin u =>
      obtain rfl := hattached
      rw [PlanStep.patternVars_snoc_builtin, PlanStep.sharedVars_snoc_builtin]
      cases current with
      | none => cases h
      | some parent =>
        cases h
        exact ⟨fun p hp => by cases hp; rfl, Sorted.ofList_congr fun v => Sorted.mem_ofList .., rfl⟩

theorem attachAll_tight {rest : List (PlanStep × Attachment)} {done : List PlanStep}
    {current : Option BetaId} (h : net.Wired) (ht : net.Tight P)
    (hc : net.Covering done current (Sorted.ofList (patternVars done)))
    (hevaluable : Evaluable net.builtins (done ++ rest.map Prod.fst))
    (hattached : ∀ e ∈ rest, net.Attached e) (hnew : net.Uncovered done (rest.map Prod.fst))
    (hplan : P (done ++ rest.map Prod.fst)) :
    (attachAll done current (Sorted.ofList (patternVars done)) rest net).1.Tight P := by
  induction rest generalizing net done current with
  | nil => exact ht
  | cons first rest ih =>
    obtain ⟨step, attachment⟩ := first
    rw [List.map_cons, List.append_cons] at hevaluable hplan
    have hfirst := hattached _ (List.mem_cons_self ..)
    obtain ⟨attached, edge, node, hattach, heq, hlength, hadded⟩ :=
      attach_spec h hc hfirst hevaluable.of_append (hnew [step] (by simp) (by simp))
    have hcurrent : done = [] ↔ current = none := by
      rcases hc.node with ⟨rfl, rfl⟩ | ⟨id, rfl, hid⟩
      · exact iff_of_true rfl rfl
      · exact iff_of_false (h.beta.evaluable _ hid).1 (by simp)
    obtain ⟨hleft, houtputs, hjoins⟩ := attach_node hcurrent hfirst hattach
    have hparent : ∀ p, node.left = .beta p → p ∈ net.betaIds := by
      intro p hp
      rcases hc.node with ⟨_, hnone⟩ | ⟨id, hsome, hid⟩
      · cases hnone.symm.trans (hleft p hp)
      · cases hsome.symm.trans (hleft p hp)
        exact h.beta.mem_betaIds hid
    have hstart : ∃ whole, P whole ∧ done ++ [step] <+: whole :=
      ⟨_, hplan, List.prefix_append ..⟩
    rw [attachAll, hattach]
    dsimp only
    rw [heq, hlength, houtputs]
    refine ih hadded.wired (ht.addBeta h.beta hstart hparent houtputs hjoins) ?_ hevaluable
      (fun e he => (hattached e (List.mem_cons_of_mem _ he)).addBeta edge current node _)
      (hnew.addBeta edge current node) hplan
    exact ⟨.inr ⟨_, rfl, List.mem_append_right _ (List.mem_singleton.mpr rfl)⟩,
      houtputs ▸ hadded.bound⟩

theorem attachPlan_tight (h : net.Wired) (ht : net.Tight P) {steps : List PlanStep}
    (hevaluable : Evaluable net.builtins steps) (hplan : P steps) :
    (net.attachPlan steps).1.Tight P := by
  obtain ⟨done, current, rest, hall, heq, hcovering, hattached, huncovered⟩ :=
    attachPlan_eq h hevaluable
  obtain ⟨hwired, hextends, _⟩ := attachments_spec h (rest.map Prod.fst)
  subst hall
  rw [heq]
  refine attachAll_tight hwired (ht.attachments fun t ht' => ⟨_, hplan, ?_⟩) hcovering
    (hextends.builtins.symm ▸ hevaluable) hattached huncovered hplan
  exact List.mem_append_right _ ht'

/-! ### Rules -/

theorem Tight.addProduction (h : net.Tight P) (rule : HornRule) (terminal : Option BetaId) :
    (net.addProduction rule terminal).1.Tight P := by
  have hjoint : ∀ {id other}, (net.addProduction rule terminal).1.joint? id = some other →
      ∃ old, net.joint? id = some old ∧ other.left = old.left ∧ other.joinVars = old.joinVars ∧
        other.outputVars = old.outputVars := by
    intro id other hother
    rw [joint?_addProduction] at hother
    obtain ⟨old, hold, rfl⟩ := Option.map_eq_some_iff.mp hother
    refine ⟨old, hold, ?_⟩
    split <;> exact ⟨rfl, rfl, rfl⟩
  refine ⟨?_, ?_, ?_, ?_, ?_, ?_, ?_⟩
  · rw [addProduction_eq]
    exact h.known
  · rw [addProduction_eq]
    exact h.listed
  · rw [addProduction_eq]
    exact h.tested
  · rw [planIndex_addProduction]
    exact h.starts
  · intro id other p hother hp
    obtain ⟨old, hold, hsame, _⟩ := hjoint hother
    exact h.older id old p hold (hsame ▸ hp)
  · rw [planIndex_addProduction]
    intro e he other hother
    obtain ⟨old, hold, _, _, hsame⟩ := hjoint hother
    exact hsame.trans (h.outputs e he old hold)
  · rw [planIndex_addProduction]
    intro e he other hother
    obtain ⟨old, hold, _, hsame, _⟩ := hjoint hother
    exact hsame.trans (h.joins e he old hold)

/-- The plan of a new production is one more. -/
theorem isPlan_addProduction {grown : Network} (hextends : Extends net grown) {rule : HornRule}
    (terminal : Option BetaId) {steps : List PlanStep}
    (h : net.IsPlan steps ∨ plan net.builtins rule.body = .ok steps) :
    (grown.addProduction rule terminal).1.IsPlan steps := by
  rcases h with ⟨id, other, hrule, hplan⟩ | hplan
  · refine ⟨id, other, (hextends.trans (.addProduction grown rule terminal)).rules id other hrule, ?_⟩
    rw [builtins_addProduction, hextends.builtins]
    exact hplan
  · refine ⟨⟨grown.productions.length⟩, rule, ?_, ?_⟩
    · rw [rule?_addProduction, if_pos rfl]
    · rw [builtins_addProduction, hextends.builtins]
      exact hplan

theorem compile_tight (h : net.Wired) (ht : net.Tight net.IsPlan) (rule : HornRule) :
    (net.compile rule).1.Tight (net.compile rule).1.IsPlan := by
  have hcompiles := net.compile_compiles rule
  generalize net.compile rule = out at hcompiles
  cases hcompiles with
  | dropped => exact ht
  | duplicate => exact ht
  | truth =>
    exact (ht.addProduction rule none).mono fun _ hsteps =>
      isPlan_addProduction (.refl net) none (.inl hsteps)
  | @conditional steps grown beta hhead hplan hnew hsteps hattach =>
    have hevaluable := evaluable_of_plan hplan
    obtain ⟨_, hextends, _⟩ := attachPlan_spec h hsteps hevaluable
    have hmore := attachPlan_tight (P := fun s => net.IsPlan s ∨ plan net.builtins rule.body = .ok s) h
      (ht.mono fun _ => .inl) hevaluable (.inr hplan)
    rw [hattach] at hextends hmore
    exact (hmore.addProduction rule (some beta)).mono fun _ hmem =>
      isPlan_addProduction hextends (some beta) hmem

theorem compileAll_tight (h : net.Wired) (ht : net.Tight net.IsPlan) (rules : List HornRule)
    (report : BuildReport) :
    (net.compileAll report rules).1.Tight (net.compileAll report rules).1.IsPlan := by
  induction rules generalizing net report with
  | nil => exact ht
  | cons rule rest ih => exact ih (compile_spec h rule).wired (compile_tight h ht rule) _

/-- Plans are a matter of the skeleton too. -/
theorem isPlan_of_skeleton_eq (h : net'.skeleton = net.skeleton) : net'.IsPlan = net.IsPlan := by
  funext steps
  simp only [IsPlan, rule?_of_skeleton_eq h, builtins_of_skeleton_eq h]

theorem Tight.carry (h : net.Tight net.IsPlan) (heq : net'.skeleton = net.skeleton) :
    net'.Tight net'.IsPlan := by
  rw [isPlan_of_skeleton_eq heq]
  exact h.of_skeleton_eq heq

end Network

open Network

/-- A network has the nodes its productions need, however it was made. -/
theorem History.tight {builtins : Registry} {options : NetworkOptions} {net : Network}
    {ledger : Ledger} (h : History builtins options net ledger) : net.Tight net.IsPlan := by
  induction h with
  | new => exact tight_new ..
  | addRule hbefore hcall ih =>
    obtain ⟨hc, hactivate⟩ := addRule_spec hbefore.keeps.resting.wired hcall
    exact (compile_tight hbefore.keeps.resting.wired ih _).carry
      (hbefore.keeps.resting.activate hc hactivate).1
  | addRules hbefore hcall ih =>
    obtain ⟨hc, hactivate⟩ := addRules_spec hbefore.keeps.resting.wired hcall
    exact (compileAll_tight hbefore.keeps.resting.wired ih _ _).carry
      (hbefore.keeps.resting.activate hc hactivate).1
  | feed hbefore hcall ih => exact ih.carry (hbefore.keeps.resting.feed hcall).1
  | reset hbefore hcall ih => exact ih.carry (reset_spec hbefore.keeps.resting.wired hcall).1
  | setCancellation flag hbefore ih => exact ih.carry rfl

/-! ### The trie -/

namespace Network

variable {net : Network} {P : List PlanStep → Prop}

/-- The node `id` of a trie that stands for the start `steps` of a plan. -/
structure Stands (net : Network) (steps : List PlanStep) (id : BetaId) (node : BetaNode) : Prop where
  inputs : net.Inputs id node steps
  /-- The left input of a node that is not the first is an older node, whose child it is. -/
  parent : ∀ done step, steps = done ++ [step] → done ≠ [] → ∃ parent above,
    (done, parent) ∈ net.planIndex ∧ node.left = .beta parent ∧ parent.index < id.index ∧
      net.betas[parent.index]? = some above ∧ above.successors.count id = 1
  outputs : node.outputVars = Sorted.ofList (patternVars steps)
  joins : node.joinVars = sharedVars steps
  /-- One edge leads to the node of a pattern, none to that of a test. -/
  edge : net.edges.filter (fun edge => edge.beta = id) = (edgeInto? (steps, id)).toList

/-- The nodes of the network are those of the trie of its plans, each once. -/
structure IsTrie (net : Network) : Prop where
  keys : (net.alphas.map AlphaNode.key).Nodup
  tested : ∀ key, key ∈ net.alphas.map AlphaNode.key ↔
    ∃ steps t, net.IsPlan steps ∧ .pattern t ∈ steps ∧ AlphaKey.of t = key
  /-- Every alpha node is listed once, under its predicate or among the wildcards. -/
  listed : (net.predicateIndex.items ++ net.wildcards).Perm net.alphaIds
  places : ∀ id key, net.alphaKey? id = some key → match key.predicate? with
    | some predicate => id ∈ net.predicateIndex.find predicate
    | none => id ∈ net.wildcards
  nodes : net.planIndex.map Prod.snd = net.betaIds
  distinct : (net.planIndex.map Prod.fst).Nodup
  starts : ∀ steps, steps ∈ net.planIndex.map Prod.fst ↔
    steps ≠ [] ∧ ∃ whole, net.IsPlan whole ∧ steps <+: whole
  stands : ∀ steps id, (steps, id) ∈ net.planIndex →
    ∃ node, net.betas[id.index]? = some node ∧ net.Stands steps id node
  /-- A production ends at the node of its plan, and is listed there and nowhere else. -/
  ends : ∀ id p, net.production? id = some p → ∃ steps, plan net.builtins p.rule.body = .ok steps ∧
    (p.terminal = none ↔ steps = []) ∧
    (∀ beta, p.terminal = some beta ↔ (steps, beta) ∈ net.planIndex) ∧
    ∀ (beta : BetaId) node, net.betas[beta.index]? = some node →
      node.productions.count id = if p.terminal = some beta then 1 else 0

theorem Tight.nodup_keys (h : net.Tight P) : (net.alphas.map AlphaNode.key).Nodup := by
  refine List.nodup_iff_getElem?_ne_getElem?.mpr fun i j hij hj heq => ?_
  rw [List.length_map] at hj
  obtain ⟨key, hkey⟩ : ∃ key, (net.alphas.map AlphaNode.key)[j]? = some key :=
    ⟨_, List.getElem?_eq_getElem (by simpa using hj)⟩
  have hi := heq.trans hkey
  rw [List.getElem?_map] at hi hkey
  have hi := h.known ⟨i⟩ key hi
  have hj := h.known ⟨j⟩ key hkey
  rw [hi] at hj
  cases hj
  exact Nat.lt_irrefl _ hij

theorem mem_keys_iff {key : AlphaKey} :
    key ∈ net.alphas.map AlphaNode.key ↔ ∃ id, net.alphaKey? id = some key := by
  constructor
  · intro hkey
    obtain ⟨n, hn⟩ := List.mem_iff_getElem?.mp hkey
    rw [List.getElem?_map] at hn
    exact ⟨⟨n⟩, hn⟩
  · rintro ⟨id, hid⟩
    obtain ⟨node, hnode, rfl⟩ := Option.map_eq_some_iff.mp hid
    exact List.mem_map_of_mem (List.mem_of_getElem? hnode)

/-- The patterns of a plan that has a node are tested. -/
theorem Wired.tests (h : net.Wired) {steps : List PlanStep} {id : BetaId}
    (he : (steps, id) ∈ net.planIndex) :
    ∀ t, .pattern t ∈ steps → ∃ a, net.alphaKey? a = some (AlphaKey.of t) := by
  induction he using h.beta.induction with
  | root u id he =>
    intro t ht
    obtain ⟨_, a, _, _, _, _, hedge⟩ := h.beta.node_root he
    cases List.mem_singleton.mp ht
    exact ⟨a, h.alpha.keyed a _ hedge⟩
  | child done step id parent he hp ih =>
    intro t ht
    rcases List.mem_append.mp ht with ht | ht
    · exact ih t ht
    · obtain rfl := List.mem_singleton.mp ht
      obtain ⟨_, _, a, _, _, _, _, _, hedge⟩ := h.beta.node_join he (h.beta.evaluable _ hp).1
      exact ⟨a, h.alpha.keyed a _ hedge⟩

/-- With a plan its starts have nodes. -/
theorem BetaWired.starts (h : net.BetaWired) {whole : List PlanStep} {id : BetaId}
    (he : (whole, id) ∈ net.planIndex) :
    ∀ steps, steps ≠ [] → steps <+: whole → steps ∈ net.planIndex.map Prod.fst := by
  induction he using h.induction with
  | root t id he =>
    intro steps hsteps hprefix
    have hlength := hprefix.length_le
    have hpos := List.length_pos_iff.mpr hsteps
    rw [List.IsPrefix.eq_of_length hprefix (by rw [List.length_singleton] at hlength ⊢; omega)]
    exact List.mem_map_of_mem he
  | child done step id parent he hp ih =>
    intro steps hsteps hprefix
    rcases List.prefix_concat_iff.mp hprefix with rfl | hprefix
    · exact List.mem_map_of_mem he
    · exact ih steps hsteps hprefix

/-- The plan of a production has a node unless it is empty. -/
theorem Wired.planned (h : net.Wired) {steps : List PlanStep} (hplan : net.IsPlan steps) :
    steps = [] ∨ ∃ id, (steps, id) ∈ net.planIndex := by
  obtain ⟨id, rule, hrule, hplan⟩ := hplan
  obtain ⟨_, other, hother, hcases⟩ := h.production.planned id rule hrule
  cases hplan.symm.trans hother
  exact hcases.imp And.left fun ⟨terminal, he, _⟩ => ⟨terminal, he⟩

theorem children_eq (net : Network) (done : List PlanStep) : net.children done =
    (net.planIndex.filter fun e => e.1.dropLast = done).map Prod.snd := by
  rw [children, ← List.filterMap_eq_map, List.filterMap_filter]
  simp

/-- A child is listed once. -/
theorem BetaWired.count_children (h : net.BetaWired) {done : List PlanStep} {step : PlanStep}
    {id : BetaId} (he : (done ++ [step], id) ∈ net.planIndex) : (net.children done).count id = 1 := by
  have hnodup : (net.planIndex.map Prod.snd).Nodup := h.ids ▸ net.nodup_betaIds
  rw [children_eq]
  refine List.count_eq_one_of_mem (hnodup.sublist (List.filter_sublist.map _)) ?_
  exact List.mem_map.mpr ⟨_, List.mem_filter.mpr ⟨he, by simp⟩, rfl⟩

/-- The edges into a node are those of its plan. -/
theorem BetaWired.edges_into (h : net.BetaWired) {steps : List PlanStep} {id : BetaId}
    (he : (steps, id) ∈ net.planIndex) :
    net.edges.filter (fun edge => edge.beta = id) = (edgeInto? (steps, id)).toList := by
  have hbeta : ∀ e edge, edgeInto? e = some edge → edge.beta = e.2 := by
    intro e edge hedge
    obtain ⟨t, _, rfl⟩ := Option.map_eq_some_iff.mp hedge
    rfl
  have hperm := h.edges.filter fun edge => decide (edge.beta = id)
  have hself : (edgeInto? (steps, id)).filter (fun edge => decide (edge.beta = id)) =
      edgeInto? (steps, id) := by
    cases hinto : edgeInto? (steps, id) with
    | none => rfl
    | some edge =>
      have hid : edge.beta = id := hbeta _ edge hinto
      simp [hid]
  rw [List.filter_filterMap, filterMap_eq_of_unique h.nodup_planIndex he, hself] at hperm
  · cases hinto : edgeInto? (steps, id) with
    | none =>
      rw [hinto] at hperm
      exact hperm.eq_nil
    | some edge =>
      rw [hinto] at hperm
      exact hperm.eq_singleton
  · intro e hmem hne
    refine Option.filter_eq_none_iff.mpr fun edge hedge heq => hne ?_
    have hid : e.2 = id := (hbeta e edge hedge).symm.trans (by simpa using heq)
    subst hid
    exact Prod.ext (h.plan_unique hmem he) rfl

theorem exists_beta {id : BetaId} (h : id ∈ net.betaIds) :
    ∃ node, net.betas[id.index]? = some node ∧ net.joint? id = some node.clear := by
  obtain ⟨node, hnode⟩ := exists_joint h
  obtain ⟨old, hold, _⟩ := Option.map_eq_some_iff.mp hnode
  exact ⟨old, hold, joint?_of_getElem? hold⟩

theorem Wired.stands (h : net.Wired) (ht : net.Tight P) {steps : List PlanStep} {id : BetaId}
    (he : (steps, id) ∈ net.planIndex) :
    ∃ node, net.betas[id.index]? = some node ∧ net.Stands steps id node := by
  obtain ⟨node, hnode, hjoint⟩ := exists_beta (h.beta.mem_betaIds he)
  obtain ⟨other, hother, hinputs, _⟩ := h.beta.inputs _ he
  cases hother.symm.trans hjoint
  have houtputs : node.outputVars = Sorted.ofList (patternVars steps) :=
    ht.outputs _ he node.clear hjoint
  have hjoins : node.joinVars = sharedVars steps := ht.joins _ he node.clear hjoint
  refine ⟨node, hnode, hinputs.mono rfl (fun _ he => he) (fun _ _ hedge => hedge) rfl rfl rfl, ?_,
    houtputs, hjoins, h.beta.edges_into he⟩
  rintro done step rfl hdone
  have hparent : ∃ parent, (done, parent) ∈ net.planIndex ∧ node.left = .beta parent := by
    cases step with
    | pattern t =>
      obtain ⟨other, parent, _, hsame, hp, hleft, _⟩ := h.beta.node_join he hdone
      cases hsame.symm.trans hjoint
      exact ⟨parent, hp, hleft⟩
    | builtin t =>
      obtain ⟨other, parent, hsame, hp, hleft, _⟩ := h.beta.node_test he
      cases hsame.symm.trans hjoint
      exact ⟨parent, hp, hleft⟩
  obtain ⟨parent, hp, hleft⟩ := hparent
  obtain ⟨above, habove, hjoint'⟩ := exists_beta (h.beta.mem_betaIds hp)
  obtain ⟨other, hother, _, hsuccessors⟩ := h.beta.inputs _ hp
  cases hother.symm.trans hjoint'
  refine ⟨parent, above, hp, hleft, ht.older id _ parent hjoint hleft, habove, ?_⟩
  have hchildren : above.successors = net.children done := hsuccessors
  rw [hchildren, h.beta.count_children he]

theorem Wired.ends (h : net.Wired) {id : ProductionId} {p : Production}
    (hp : net.production? id = some p) : ∃ steps, plan net.builtins p.rule.body = .ok steps ∧
      (p.terminal = none ↔ steps = []) ∧
      (∀ beta, p.terminal = some beta ↔ (steps, beta) ∈ net.planIndex) ∧
      ∀ (beta : BetaId) node, net.betas[beta.index]? = some node →
        node.productions.count id = if p.terminal = some beta then 1 else 0 := by
  have hterminal : net.terminal? id = some p.terminal := congrArg (Option.map Production.terminal) hp
  obtain ⟨_, steps, hplan, hcases⟩ := h.production.planned id p.rule (rule?_of_production? hp)
  rw [hterminal] at hcases
  refine ⟨steps, hplan, ?_, fun beta => ?_, fun beta node hnode => ?_⟩
  · rcases hcases with ⟨rfl, hnone⟩ | ⟨terminal, he, hsome⟩
    · exact iff_of_true (Option.some.inj hnone) rfl
    · rw [Option.some.inj hsome]
      exact iff_of_false (by simp) (h.beta.evaluable _ he).1
  · rcases hcases with ⟨rfl, hnone⟩ | ⟨terminal, he, hsome⟩
    · rw [Option.some.inj hnone]
      exact iff_of_false (by simp) fun he => (h.beta.evaluable _ he).1 rfl
    · rw [Option.some.inj hsome, Option.some.injEq]
      exact ⟨fun heq => heq ▸ he, h.beta.node_unique he⟩
  · have hproductions : node.productions = net.productionsAt (some beta) :=
      h.production.ending beta node.clear (joint?_of_getElem? hnode)
    have hnodup : (net.productionsAt (some beta)).Nodup := net.nodup_productionIds.filter _
    rw [hproductions, hnodup.count]
    simp only [mem_productionsAt, hterminal, Option.some.injEq]

theorem Wired.isTrie (h : net.Wired) (ht : net.Tight net.IsPlan) : net.IsTrie where
  keys := ht.nodup_keys
  tested key := by
    rw [mem_keys_iff]
    constructor
    · rintro ⟨id, hid⟩
      exact ht.tested id key hid
    · rintro ⟨steps, t, hplan, hmem, rfl⟩
      rcases h.planned hplan with rfl | ⟨id, he⟩
      · exact absurd hmem List.not_mem_nil
      · exact h.tests he t hmem
  listed := ht.listed
  places id key hkey := by
    have hid := mem_alphaIds_of_key hkey
    split
    · rename_i predicate hp
      rw [h.alpha.byPredicate, List.mem_filter]
      exact ⟨hid, by simp [hkey, hp]⟩
    · rename_i hp
      rw [h.alpha.wildcards, List.mem_filter]
      exact ⟨hid, by simp [hkey, hp]⟩
  nodes := h.beta.ids
  distinct := h.beta.plans
  starts steps := by
    constructor
    · intro hmem
      obtain ⟨e, he, rfl⟩ := List.mem_map.mp hmem
      exact ⟨(h.beta.evaluable e he).1, ht.starts e he⟩
    · rintro ⟨hsteps, whole, hplan, hprefix⟩
      rcases h.planned hplan with rfl | ⟨id, he⟩
      · exact absurd (List.prefix_nil.mp hprefix) hsteps
      · exact h.beta.starts he steps hsteps hprefix
  stands _ _ he := h.stands ht he
  ends _ _ hp := h.ends hp

end Network

/-- **After every call a network is the trie of its productions' plans.** -/
theorem History.trie {builtins : Registry} {options : NetworkOptions} {net : Network}
    {ledger : Ledger} (h : History builtins options net ledger) : net.IsTrie :=
  h.keeps.resting.wired.isTrie h.tight

/-- Two rules that start alike share a node, and all their patterns one test. -/
theorem History.trie_of_shared : ∃ net ledger, History ∅ {} net ledger ∧ net.IsTrie ∧
    net.productions.map Production.rule = [continuation, transitivity] ∧
    net.alphas.map AlphaNode.key = [AlphaKey.of ⟨.var ⟨"x"⟩, .iri "p", .var ⟨"y"⟩⟩] ∧
    net.betas.map BetaNode.successors = [[⟨1⟩], []] := by
  have hrun : ((Network.ofRule continuation 20 chain).bind fun e =>
      (e.1.addRule 40 transitivity).map fun more => (more.1.productions.map Production.rule,
        more.1.alphas.map AlphaNode.key, more.1.betas.map BetaNode.successors)) =
      some ([continuation, transitivity], [AlphaKey.of ⟨.var ⟨"x"⟩, .iri "p", .var ⟨"y"⟩⟩],
        [[⟨1⟩], []]) := by decide +kernel
  obtain ⟨⟨fed, result⟩, hcalls, hmore⟩ := Option.bind_eq_some_iff.mp hrun
  obtain ⟨⟨net, outcome⟩, hrule, hshown⟩ := Option.map_eq_some_iff.mp hmore
  obtain ⟨ledger, hhistory, _⟩ := History.of_ofRule hcalls
  obtain ⟨hrules, hrest⟩ := Prod.mk.inj hshown
  obtain ⟨hkeys, hsuccessors⟩ := Prod.mk.inj hrest
  have h := hhistory.addRule hrule
  exact ⟨net, _, h, h.trie, hrules, hkeys, hsuccessors⟩

end HornReasoner
