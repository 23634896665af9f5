import HornReasoner.Proofs.Network.Cancellation

/-! Forgetting and building anew.

Compiling a rule looks at connections only and adds the same whatever the facts are, so it
commutes with taking the skeleton (`skeleton_compile`). Other calls keep the skeleton. So a network
has the skeleton of a new one that compiled the rules it was handed, and resetting it does what
handing them all to a new one does (`reset_eq_addRules`). -/
namespace HornReasoner.Network

variable {net net' : Network} {budget : Nat}

/-! ### Nodes -/

theorem skeleton_addAlpha (net : Network) (pattern : Triple) :
    (net.addAlpha pattern).skeleton = net.skeleton.addAlpha pattern := by
  simp only [addAlpha, skeleton, List.map_append, List.map_cons, List.map_nil, List.length_map]

theorem skeleton_alphaFor (net : Network) (pattern : Triple) : net.skeleton.alphaFor pattern =
    ((net.alphaFor pattern).1.skeleton, (net.alphaFor pattern).2) := by
  cases hfound : net.alphaIndex.lookup (AlphaKey.of pattern) with
  | some id =>
    rw [alphaFor_of_some net pattern hfound, alphaFor_of_some net.skeleton pattern hfound]
  | none =>
    rw [alphaFor_of_none net pattern hfound, alphaFor_of_none net.skeleton pattern hfound,
      skeleton_addAlpha]
    simp [skeleton]

theorem skeleton_attachments (net : Network) (steps : List PlanStep) : net.skeleton.attachments steps =
    ((net.attachments steps).1.skeleton, (net.attachments steps).2) := by
  induction steps generalizing net with
  | nil => rfl
  | cons step rest ih =>
    cases step with
    | pattern t => simp only [attachments, skeleton_alphaFor, ih]
    | builtin t => simp only [attachments, ih]

theorem skeleton_addEdge (net : Network) (id : AlphaId) (edge : AlphaEdge) :
    (net.addEdge id edge).skeleton = net.skeleton.addEdge id edge := by
  simp only [addEdge, skeleton]
  rw [map_modify]
  exact fun _ => rfl

theorem skeleton_addSuccessor (net : Network) (parent child : BetaId) :
    (net.addSuccessor parent child).skeleton = net.skeleton.addSuccessor parent child := by
  simp only [addSuccessor, skeleton]
  rw [map_modify]
  exact fun _ => rfl

/-- A node that is attached has met no facts. -/
theorem clear_of_attach {parent : Option BetaId} {bound : List Variable} {attachment : Attachment}
    {node : BetaNode} (h : net.attach parent bound attachment = some (net', node)) :
    node.clear = node := by
  unfold attach at h
  split at h
  · dsimp only at h
    split at h <;> cases h <;> rfl
  · split at h <;> cases h
    rfl

theorem skeleton_attach (net : Network) (parent : Option BetaId) (bound : List Variable)
    (attachment : Attachment) : net.skeleton.attach parent bound attachment =
      (net.attach parent bound attachment).map fun e => (e.1.skeleton, e.2) := by
  have hlength : net.skeleton.betas.length = net.betas.length := List.length_map ..
  cases attachment with
  | alpha id pattern =>
    cases parent <;>
      simp only [attach, hlength, Option.map_some, skeleton_addEdge, skeleton_addSuccessor]
  | builtin pattern =>
    cases parent <;>
      simp only [attach, hlength, Option.map_some, Option.map_none, skeleton_addSuccessor]

theorem skeleton_attachAll (done : List PlanStep) (current : Option BetaId) (bound : List Variable)
    (rest : List (PlanStep × Attachment)) (net : Network) :
    attachAll done current bound rest net.skeleton =
      ((attachAll done current bound rest net).1.skeleton,
        (attachAll done current bound rest net).2) := by
  induction rest generalizing done current bound net with
  | nil => rfl
  | cons e rest ih =>
    obtain ⟨step, attachment⟩ := e
    simp only [attachAll, skeleton_attach]
    cases hattach : net.attach current bound attachment with
    | none => rfl
    | some e =>
      obtain ⟨grown, node⟩ := e
      have hlength : grown.skeleton.betas.length = grown.betas.length := List.length_map ..
      have hgrown : ({ grown with
          betas := grown.betas ++ [node]
          planIndex := grown.planIndex ++ [(done ++ [step], ⟨grown.betas.length⟩)] } :
            Network).skeleton = { grown.skeleton with
          betas := grown.skeleton.betas ++ [node]
          planIndex := grown.planIndex ++ [(done ++ [step], ⟨grown.betas.length⟩)] } := by
        simp only [skeleton, List.map_append, List.map_cons, List.map_nil,
          clear_of_attach hattach]
      simp only [Option.map_some, hlength, planIndex_skeleton]
      rw [← hgrown]
      exact ih ..

theorem skeleton_covered (net : Network) (steps : List PlanStep) (k : Nat) :
    net.skeleton.covered steps k = net.covered steps k := by
  induction k with
  | zero => rfl
  | succ k ih => simp only [covered, planIndex_skeleton, ih]

theorem skeleton_attachPlan (net : Network) (steps : List PlanStep) : net.skeleton.attachPlan steps =
    ((net.attachPlan steps).1.skeleton, (net.attachPlan steps).2) := by
  simp only [attachPlan, skeleton_covered, skeleton_attachments, skeleton_attachAll]

/-! ### Rules -/

theorem skeleton_addProduction (net : Network) (rule : HornRule) (terminal : Option BetaId) :
    net.skeleton.addProduction rule terminal =
      ((net.addProduction rule terminal).1.skeleton, (net.addProduction rule terminal).2) := by
  rw [addProduction_eq, addProduction_eq]
  cases terminal with
  | none => simp [skeleton]
  | some beta =>
    simp only [skeleton, List.map_append, List.map_cons, List.map_nil, List.length_map]
    rw [map_modify]
    exact fun _ => rfl

/-- What compiling a rule adds does not depend on the facts. -/
theorem skeleton_compile (net : Network) (rule : HornRule) : net.skeleton.compile rule =
    ((net.compile rule).1.skeleton, (net.compile rule).2) := by
  unfold compile
  dsimp only
  rw [builtins_skeleton, signatureIndex_skeleton]
  split
  · rfl
  cases plan net.builtins rule.body with
  | error fault => rfl
  | ok steps =>
    dsimp only
    cases net.signatureIndex.lookup (RuleSignature.of rule) with
    | some id => rfl
    | none =>
      dsimp only
      split
      · simp only [skeleton_addProduction]
      · rw [skeleton_attachPlan]
        cases hattach : net.attachPlan steps with
        | mk grown terminal =>
          cases terminal with
          | none => rfl
          | some beta => simp only [skeleton_addProduction]

theorem compileAll_network (net : Network) (report : BuildReport) (rules : List HornRule) :
    (net.compileAll report rules).1 = rules.foldl (fun net rule => (net.compile rule).1) net := by
  induction rules generalizing net report with
  | nil => rfl
  | cons rule rest ih => exact ih ..

/-- A new network with rules, none of which has fired. -/
def compiled (builtins : Registry) (options : NetworkOptions) (drawn : String)
    (rules : List HornRule) : Network :=
  rules.foldl (fun net rule => (net.compile rule).1) (Network.new builtins options drawn)

section
variable (builtins : Registry) (options : NetworkOptions) (drawn : String) (rules : List HornRule)

/-- The truths of a new network are asserted when its rules are added. -/
theorem addRules_new (budget : Nat) : ∃ report : BuildReport,
    (Network.new builtins options drawn).addRules budget rules =
      ((compiled builtins options drawn rules).assertTruths budget
        (compiled builtins options drawn rules).truths).map (·, report) := by
  obtain ⟨_, _, hrunning⟩ := (resting_new builtins options drawn).running
  obtain ⟨added, hadded, hc⟩ := compileAll_spec hrunning.wired rules {}
  refine ⟨((Network.new builtins options drawn).compileAll {} rules).2, ?_⟩
  rw [compileAll_network] at hc
  change Compiled _ (compiled builtins options drawn rules) _ _ at hc
  have hempty : (compiled builtins options drawn rules).workingMemory.toList = [] :=
    congrArg Graph.toList hc.grown.memory
  -- all productions are new, so the new truths are all there are
  have htruths : added.filter (compiled builtins options drawn rules).isTruth =
      (compiled builtins options drawn rules).truths := by
    obtain ⟨more, hmore, _, rfl⟩ := hc.productions
    have hids : (compiled builtins options drawn rules).productionIds =
        (List.range' 0 more.length).map ProductionId.mk := by
      rw [productionIds, hmore, List.range_eq_range']
      rfl
    rw [hc.wired.production.truths, productionsAt, hids]
    refine List.filter_congr fun id _ => ?_
    rw [Bool.eq_iff_iff, isTruth_iff, decide_eq_true_iff]
  have hactivate : (compiled builtins options drawn rules).activate budget added =
      (compiled builtins options drawn rules).assertTruths budget
        (compiled builtins options drawn rules).truths := by
    rcases (compiled builtins options drawn rules).activate_eq added with ⟨_, hknown, _⟩ | ⟨heq, _⟩
    · exact absurd hempty hknown
    · rw [heq, htruths]
  have hreport : ((Network.new builtins options drawn).compileAll {} rules).2.added = added := hadded
  have hcall : (Network.new builtins options drawn).addRules budget rules =
      (((Network.new builtins options drawn).compileAll {} rules).1.activate budget
        ((Network.new builtins options drawn).compileAll {} rules).2.added).map
          (·, ((Network.new builtins options drawn).compileAll {} rules).2) := rfl
  rw [hcall, compileAll_network, hreport]
  exact congrArg (Option.map _) hactivate

end

/-! ### Calls keep the skeleton -/

/-- The network is one that was handed rules, and perhaps facts, and was never cancelled. -/
structure Handed (builtins : Registry) (options : NetworkOptions) (drawn : String)
    (rules : List HornRule) (net : Network) : Prop where
  skeleton : net.skeleton = compiled builtins options drawn rules
  cancellation : net.cancellation = {}

section
variable {builtins : Registry} {options : NetworkOptions} {drawn : String} {rules : List HornRule}

theorem Handed.of_same (h : Handed builtins options drawn rules net)
    (hskeleton : net'.skeleton = net.skeleton) (hflag : net'.cancellation = net.cancellation) :
    Handed builtins options drawn rules net' :=
  ⟨hskeleton.trans h.skeleton, hflag.trans h.cancellation⟩

theorem Handed.compile (h : Handed builtins options drawn rules net) (rule : HornRule) :
    Handed builtins options drawn (rules ++ [rule]) (net.compile rule).1 where
  skeleton := by
    have hcommute := congrArg Prod.fst (skeleton_compile net rule)
    rw [h.skeleton] at hcommute
    rw [compiled, List.foldl_append]
    exact hcommute.symm
  cancellation := (cancellation_compile net rule).trans h.cancellation

theorem Handed.compileAll (h : Handed builtins options drawn rules net) (report : BuildReport)
    (more : List HornRule) :
    Handed builtins options drawn (rules ++ more) (net.compileAll report more).1 := by
  induction more generalizing rules net report with
  | nil => rwa [List.append_nil]
  | cons rule rest ih =>
    rw [List.append_cons]
    exact ih (h.compile rule) _

theorem Handed.activate (h : Handed builtins options drawn rules net) {added : List ProductionId}
    (ha : net.activate budget added = some net') : Handed builtins options drawn rules net' :=
  h.of_same (activate_keeps skeleton_run skeleton_cleared ha) (cancellation_activate ha)

theorem Handed.addRule (h : Handed builtins options drawn rules net) {rule : HornRule}
    {outcome : RuleOutcome} (hcall : net.addRule budget rule = some (net', outcome)) :
    Handed builtins options drawn (rules ++ [rule]) net' := by
  have hcompiled := h.compile rule
  unfold Network.addRule at hcall
  split at hcall
  · rename_i compiled id hcompile
    rw [hcompile] at hcompiled
    obtain ⟨final, hfinal, heq⟩ := Option.map_eq_some_iff.mp hcall
    cases heq
    exact hcompiled.activate hfinal
  · rw [Option.some.inj hcall] at hcompiled
    exact hcompiled

theorem Handed.addRules (h : Handed builtins options drawn rules net) {more : List HornRule}
    {report : BuildReport} (hcall : net.addRules budget more = some (net', report)) :
    Handed builtins options drawn (rules ++ more) net' := by
  obtain ⟨final, hfinal, heq⟩ := Option.map_eq_some_iff.mp hcall
  cases heq
  exact (h.compileAll {} more).activate hfinal

theorem Handed.feed (h : Handed builtins options drawn rules net) {facts : List Triple}
    {stop : Readings} {result : Except FeedError FeedReport}
    (hf : net.feed budget facts stop = some (net', result)) :
    Handed builtins options drawn rules net' :=
  feed_keeps (P := Handed builtins options drawn rules)
    (fun _ _ _ hother hr => hother.of_same ((skeleton_run hr).trans rfl)
      ((cancellation_run hr).trans rfl)) h hf

/-- **Resetting a network is building it anew** from all rules that it was handed. -/
theorem Handed.reset_eq (h : Handed builtins options drawn rules net) (budget : Nat) :
    net.reset budget =
      ((Network.new builtins options drawn).addRules budget rules).map Prod.fst := by
  obtain ⟨report, haddRules⟩ := addRules_new builtins options drawn rules budget
  have hforgotten : net.forgotten = compiled builtins options drawn rules := by
    rw [forgotten, h.cancellation, ← h.skeleton]
    rfl
  have htruths : net.truths = (compiled builtins options drawn rules).truths := by
    rw [← h.skeleton, truths_skeleton]
  have hreset : net.reset budget = net.forgotten.assertTruths budget net.truths := rfl
  rw [hreset, hforgotten, htruths, haddRules, Option.map_map]
  exact Option.map_id'.symm

theorem Handed.reset (h : Handed builtins options drawn rules net) (hr : net.reset budget = some net') :
    Handed builtins options drawn rules net' := by
  have hkept : net'.skeleton = net.forgotten.skeleton := runs_keep skeleton_run hr
  have hflag : net'.cancellation = net.forgotten.cancellation := runs_keep cancellation_run hr
  exact h.of_same (hkept.trans net.skeleton_forgotten) hflag

end

/-! ### Sequences of calls -/

/-- The rules that a call hands to the network. -/
def Call.rules : Call → List HornRule
  | addRule rule => [rule]
  | addRules rules => rules
  | feed .. => []
  | reset => []

/-- Calls in turn, each with its budget, and what each of them answers. -/
def calls (net : Network) : List (Nat × Call) → Option (Network × List (Σ c : Call, c.Answer))
  | [] => some (net, [])
  | (budget, c) :: rest =>
    (net.call budget c).bind fun e =>
      (e.1.calls rest).map fun more => (more.1, ⟨c, e.2⟩ :: more.2)

section
variable {builtins : Registry} {options : NetworkOptions} {drawn : String} {rules : List HornRule}

theorem handed_new (builtins : Registry) (options : NetworkOptions) (drawn : String) :
    Handed builtins options drawn [] (Network.new builtins options drawn) := ⟨rfl, rfl⟩

/-- A call hands its rules to the network. -/
theorem Handed.call (h : Handed builtins options drawn rules net) {c : Call} {answer : c.Answer}
    (hc : net.call budget c = some (net', answer)) :
    Handed builtins options drawn (rules ++ c.rules) net' := by
  cases c with
  | addRule rule => exact h.addRule hc
  | addRules more => exact h.addRules hc
  | feed facts stop =>
    rw [Call.rules, List.append_nil]
    exact h.feed hc
  | reset =>
    obtain ⟨other, hcall, heq⟩ := Option.map_eq_some_iff.mp hc
    cases heq
    rw [Call.rules, List.append_nil]
    exact h.reset hcall

theorem Handed.calls (h : Handed builtins options drawn rules net) {history : List (Nat × Call)}
    {answers : List (Σ c : Call, c.Answer)} (hc : net.calls history = some (net', answers)) :
    Handed builtins options drawn (rules ++ history.flatMap fun e => e.2.rules) net' := by
  induction history generalizing rules net answers with
  | nil =>
    cases hc
    simpa using h
  | cons e rest ih =>
    obtain ⟨⟨next, answer⟩, hcall, hrest⟩ := Option.bind_eq_some_iff.mp hc
    obtain ⟨⟨final, more⟩, hmore, heq⟩ := Option.map_eq_some_iff.mp hrest
    cases heq
    rw [List.flatMap_cons, ← List.append_assoc]
    exact ih (h.call hcall) hmore

/-- **Resetting a network is building it anew.** After any calls that ended, a reset ends if and
only if adding all rules that were handed over to a new network does, in the same state; so later
calls have the same answers. -/
theorem reset_eq_addRules {history : List (Nat × Call)} {answers : List (Σ c : Call, c.Answer)}
    (h : (Network.new builtins options drawn).calls history = some (net, answers)) (budget : Nat) :
    net.reset budget = ((Network.new builtins options drawn).addRules budget
      (history.flatMap fun e => e.2.rules)).map Prod.fst ∧
    ∀ later, (net.reset budget).bind (fun reset => reset.calls later) =
      ((Network.new builtins options drawn).addRules budget
        (history.flatMap fun e => e.2.rules)).bind fun built => built.1.calls later := by
  have hreset := ((handed_new builtins options drawn).calls h).reset_eq budget
  rw [List.nil_append] at hreset
  refine ⟨hreset, fun later => ?_⟩
  rw [hreset]
  exact Option.bind_map

end

/-- Something is a value of `q`, whatever the facts. -/
def someValue : HornRule := .ofAtoms "some" [] [⟨.iri "n", .iri "q", .var ⟨"z"⟩⟩]

/-- Facts, then rules of which one is known already and one holds unconditionally. -/
def mixed : List (Nat × Call) :=
  [(30, .addRule continuation), (30, .feed chain), (30, .addRules [continuation, someValue])]

theorem reset_eq_addRules_of_mixed : ∃ net answers reset report,
    (Network.new ∅ { blankStem := some "n" }).calls mixed = some (net, answers) ∧
      net.workingMemory.toList.length = 5 ∧ net.reset 30 = some reset ∧
      reset.workingMemory.toList = [⟨.iri "n", .iri "q", .blank "n_1"⟩] ∧
      (Network.new ∅ { blankStem := some "n" }).addRules 30 [continuation, continuation, someValue] =
        some (reset, report) := by
  have hrun : ((Network.new ∅ { blankStem := some "n" }).calls mixed).bind (fun e =>
      (e.1.reset 30).map fun reset => (e.1.workingMemory.toList.length, reset.workingMemory.toList)) =
        some (5, [⟨.iri "n", .iri "q", .blank "n_1"⟩]) := by decide +kernel
  obtain ⟨⟨net, answers⟩, hcalls, hrun⟩ := Option.bind_eq_some_iff.mp hrun
  obtain ⟨reset, hreset, hfacts⟩ := Option.map_eq_some_iff.mp hrun
  obtain ⟨hlength, hfacts⟩ := Prod.mk.inj hfacts
  obtain ⟨hequal, _⟩ := reset_eq_addRules hcalls 30
  rw [hreset] at hequal
  obtain ⟨⟨built, report⟩, hadd, rfl⟩ := Option.map_eq_some_iff.mp hequal.symm
  exact ⟨net, answers, built, report, hcalls, hlength, hreset, hfacts, hadd⟩

end HornReasoner.Network
