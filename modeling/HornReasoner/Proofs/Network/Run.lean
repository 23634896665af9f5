import HornReasoner.Proofs.Network.Step

/-! Runs keep the account.

`Account` relates a network in the middle of a run to its log: every activation was begun
with or set off, the memories hold what came, and every fact was tested or is owed. Each
activation keeps it, so it holds when the agenda is empty, and then nothing that was set
off is missing. -/
namespace HornReasoner

/-- The beta node that an activation is for. -/
def Activation.target? : Activation → Option BetaId
  | left beta _ => some beta
  | right beta _ => some beta
  | _ => none

namespace Network

/-- Everything done or still to be done was begun with or set off, and the facts are those
begun with and those owed. -/
structure Account (net : Network) (log started : List Activation) (owed : List Triple) : Prop where
  balance : (log ++ net.agenda).Perm (started ++ net.setOff log)
  memories : ∀ id : BetaId, ∀ node, net.betas[id.index]? = some node →
    node.Holds (leftsOf id log) (rightsOf id log)
  facts : (factsOf started ++ owed).Perm net.workingMemory.toList
  begun : ∀ a ∈ started, (∃ t, a = .fact t) ∨ ∃ id ∈ net.truths, a = .fire id {}

variable {net : Network} {log started : List Activation} {owed : List Triple}

/-! ### What is set off -/

/-- What is set off is a matter of the skeleton. -/
theorem setOff_of_skeleton_eq {net' : Network} (h : net'.skeleton = net.skeleton)
    (log : List Activation) : net'.setOff log = net.setOff log := by
  have hskeleton : ∀ net : Network, net.skeleton.setOff log = net.setOff log := by
    intro net
    have halong : net.skeleton.alongEdges = net.alongEdges := by
      funext fact
      rw [alongEdges, edges_skeleton, alongEdges]
    have hfollow : net.skeleton.follow = net.follow := by
      funext id i
      rw [follow, joint?_skeleton, follow]
    simp only [setOff, halong, hfollow, outputs, betaIds_skeleton, joint?_skeleton,
      builtins_skeleton]
  rw [← hskeleton net', h, hskeleton net]

theorem factsOf_setOff (net : Network) (log : List Activation) : factsOf (net.setOff log) = [] := by
  rw [factsOf, filterMap_setOff, List.append_eq_nil_iff]
  refine ⟨List.flatMap_eq_nil_iff.mpr fun fact _ => List.filterMap_eq_nil_iff.mpr fun a ha => ?_,
    List.flatMap_eq_nil_iff.mpr fun other _ => List.flatMap_eq_nil_iff.mpr fun i _ =>
      List.filterMap_eq_nil_iff.mpr fun a ha => ?_⟩
  · obtain ⟨edge, _, ha⟩ := List.mem_filterMap.mp ha
    obtain ⟨b, _, rfl⟩ := Option.map_eq_some_iff.mp ha
    cases edge.side <;> rfl
  · rw [follow] at ha
    cases hnode : net.joint? other with
    | none => simp [hnode] at ha
    | some node =>
      rw [hnode, Option.map_some, Option.getD_some] at ha
      rcases List.mem_append.mp ha with ha | ha
      · obtain ⟨_, _, rfl⟩ := List.mem_map.mp ha
        rfl
      · obtain ⟨_, _, rfl⟩ := List.mem_map.mp ha
        rfl

/-- Only nodes that cover a plan are activated. -/
theorem exists_plan_of_setOff (h : net.BetaWired) {a : Activation} (ha : a ∈ net.setOff log)
    {id : BetaId} (hid : a.target? = some id) : ∃ steps, (steps, id) ∈ net.planIndex := by
  rcases List.mem_append.mp ha with ha | ha
  · obtain ⟨fact, _, ha⟩ := List.mem_flatMap.mp ha
    obtain ⟨edge, hedge, ha⟩ := List.mem_filterMap.mp ha
    obtain ⟨b, _, rfl⟩ := Option.map_eq_some_iff.mp ha
    have hbeta : edge.beta = id := by
      cases hside : edge.side <;> simpa [Activation.target?, hside] using hid
    obtain ⟨e, he, hinto⟩ := List.mem_filterMap.mp (h.edges.mem_iff.mp hedge)
    obtain ⟨t, _, rfl⟩ := Option.map_eq_some_iff.mp hinto
    exact ⟨e.1, hbeta ▸ he⟩
  · obtain ⟨other, hother, ha⟩ := List.mem_flatMap.mp ha
    obtain ⟨i, _, ha⟩ := List.mem_flatMap.mp ha
    obtain ⟨others, ho⟩ := h.exists_plan hother
    obtain ⟨node, hnode, _, hsuccessors⟩ := h.inputs _ ho
    dsimp only at hnode hsuccessors
    rw [follow, hnode, Option.map_some, Option.getD_some, followers, hsuccessors] at ha
    rcases List.mem_append.mp ha with ha | ha
    · obtain ⟨_, _, rfl⟩ := List.mem_map.mp ha
      cases hid
    · obtain ⟨child, hchild, rfl⟩ := List.mem_map.mp ha
      cases hid
      obtain ⟨e, he, hin⟩ := List.mem_filterMap.mp hchild
      split at hin
      · cases hin
        exact ⟨e.1, he⟩
      · cases hin

/-- What comes to the left of a node binds its join variables. -/
theorem binds_of_left (h : net.BetaWired) (hc : net.Covered log) {steps : List PlanStep}
    {id : BetaId} (he : (steps, id) ∈ net.planIndex) {node : BetaNode}
    (hnode : net.joint? id = some node) {i : Instantiation}
    (hi : i ∈ leftsOf id (net.setOff log)) : ∀ v ∈ node.joinVars, i.binding.contains v = true := by
  cases he using h.induction with
  | root t id he =>
    obtain ⟨_, _, hnode', _, _, hvars, _⟩ := h.node_root he
    cases hnode.symm.trans hnode'
    simp [hvars]
  | child done step id parent he hp _ =>
    cases step with
    | pattern t =>
      obtain ⟨_, _, _, hnode', _, _, _, hvars, _⟩ := h.node_join he (h.evaluable _ hp).1
      cases hnode.symm.trans hnode'
      rw [leftsOf_setOff_child log h he hp] at hi
      have hmatch := (mem_instances (h.evaluable _ hp).2 i).mp (outputs_subset h hc hp hi)
      exact fun v hv => (hmatch.2.domain v).mpr ((hvars v).mp hv).2
    | builtin t =>
      obtain ⟨_, _, hnode', _, _, _, hvars⟩ := h.node_test he
      cases hnode.symm.trans hnode'
      simp [hvars]

/-- What comes to the right of a node binds its join variables. -/
theorem binds_of_right (h : net.BetaWired) {steps : List PlanStep} {id : BetaId}
    (he : (steps, id) ∈ net.planIndex) {node : BetaNode} (hnode : net.joint? id = some node)
    {m : Match} (hm : m ∈ rightsOf id (net.setOff log)) :
    ∀ v ∈ node.joinVars, m.binding.contains v = true := by
  cases he using h.induction with
  | root t id he =>
    obtain ⟨_, _, hnode', _, _, hvars, _⟩ := h.node_root he
    cases hnode.symm.trans hnode'
    simp [hvars]
  | child done step id parent he hp _ =>
    have hdone := (h.evaluable _ hp).1
    cases step with
    | pattern t =>
      obtain ⟨_, _, _, hnode', _, _, _, hvars, _⟩ := h.node_join he hdone
      cases hnode.symm.trans hnode'
      have hmatch := Match.mem_all.mp ((rightsOf_setOff_pattern log h he hdone).subset hm)
      exact fun v hv => ((Binding.ofMatch_spec hmatch.2).2 v).mpr ((hvars v).mp hv).1
    | builtin t =>
      obtain ⟨_, _, hnode', _, _, _, hvars⟩ := h.node_test he
      cases hnode.symm.trans hnode'
      simp [hvars]

/-! ### What the account says -/

namespace Account

/-- What came to a node, or will, was set off. -/
theorem filterMap_perm (h : Account net log started owed) {β : Type} {g : Activation → Option β}
    (hg : ∀ a ∈ started, g a = none) :
    (log.filterMap g ++ net.agenda.filterMap g).Perm ((net.setOff log).filterMap g) := by
  have hperm := h.balance.filterMap g
  rw [List.filterMap_append, List.filterMap_append, List.filterMap_eq_nil_iff.mpr hg] at hperm
  exact hperm

theorem left?_started (h : Account net log started owed) (id : BetaId) :
    ∀ a ∈ started, a.left? id = none := by
  intro a ha
  rcases h.begun a ha with ⟨t, rfl⟩ | ⟨p, _, rfl⟩ <;> rfl

theorem right?_started (h : Account net log started owed) (id : BetaId) :
    ∀ a ∈ started, a.right? id = none := by
  intro a ha
  rcases h.begun a ha with ⟨t, rfl⟩ | ⟨p, _, rfl⟩ <;> rfl

theorem covered (h : Account net log started owed) : net.Covered log where
  lefts id _ hi := (h.filterMap_perm (h.left?_started id)).subset (List.mem_append_left _ hi)
  rights id _ hm := (h.filterMap_perm (h.right?_started id)).subset (List.mem_append_left _ hm)

/-- When nothing is left to do, all that was set off was done. -/
theorem delivered (h : Account net log started owed) (hagenda : net.agenda = []) :
    net.Delivered log where
  lefts id := by
    have hperm := h.filterMap_perm (h.left?_started id)
    rw [hagenda, List.filterMap_nil, List.append_nil] at hperm
    exact hperm
  rights id := by
    have hperm := h.filterMap_perm (h.right?_started id)
    rw [hagenda, List.filterMap_nil, List.append_nil] at hperm
    exact hperm

theorem factsOf_perm (h : Account net log started owed) :
    (factsOf log ++ factsOf net.agenda ++ owed).Perm net.workingMemory.toList := by
  have hperm := h.balance.filterMap Activation.fact?
  rw [List.filterMap_append, List.filterMap_append] at hperm
  have hset : (net.setOff log).filterMap Activation.fact? = [] := factsOf_setOff net log
  rw [hset, List.append_nil] at hperm
  exact (hperm.append_right owed).trans h.facts

/-- The facts tested are known. -/
theorem factsOf_subset (h : Account net log started owed) :
    factsOf log ⊆ net.workingMemory.toList := by
  intro t ht
  exact h.factsOf_perm.subset (List.mem_append_left _ (List.mem_append_left _ ht))

/-- What is on the agenda for a node was set off, and the node covers a plan. -/
theorem set_off (h : Account net log started owed) (hw : net.BetaWired) {a : Activation}
    (ha : a ∈ net.agenda) {id : BetaId} (hid : a.target? = some id) :
    a ∈ net.setOff log ∧
      ∃ steps node, (steps, id) ∈ net.planIndex ∧ net.betas[id.index]? = some node := by
  have hset : a ∈ net.setOff log := by
    rcases List.mem_append.mp (h.balance.subset (List.mem_append_right _ ha)) with hin | hin
    · rcases h.begun a hin with ⟨_, rfl⟩ | ⟨_, _, rfl⟩ <;> cases hid
    · exact hin
  obtain ⟨steps, he⟩ := exists_plan_of_setOff hw hset hid
  obtain ⟨joint, hjoint⟩ := exists_joint (hw.mem_betaIds he)
  obtain ⟨node, hnode, _⟩ := Option.map_eq_some_iff.mp hjoint
  exact ⟨hset, steps, node, he, hnode⟩

/-- What comes to the left of a node finds a key there. -/
theorem left_keyed (h : Account net log started owed) (hw : net.BetaWired) {id : BetaId}
    {i : Instantiation} (ha : .left id i ∈ net.agenda) :
    ∃ node, net.betas[id.index]? = some node ∧ (i.binding.keyFor node.joinVars).isSome := by
  obtain ⟨hset, steps, node, he, hnode⟩ := h.set_off hw ha rfl
  have hi : i ∈ leftsOf id (net.setOff log) :=
    List.mem_filterMap.mpr ⟨_, hset, by simp [Activation.left?]⟩
  have hjoint := joint?_of_getElem? hnode
  exact ⟨node, hnode, Binding.keyFor_isSome (binds_of_left hw h.covered he hjoint hi)⟩

/-- What comes to the right of a node finds a key there. -/
theorem right_keyed (h : Account net log started owed) (hw : net.BetaWired) {id : BetaId} {m : Match}
    (ha : .right id m ∈ net.agenda) :
    ∃ node, net.betas[id.index]? = some node ∧ (m.binding.keyFor node.joinVars).isSome := by
  obtain ⟨hset, steps, node, he, hnode⟩ := h.set_off hw ha rfl
  have hm : m ∈ rightsOf id (net.setOff log) :=
    List.mem_filterMap.mpr ⟨_, hset, by simp [Activation.right?]⟩
  have hjoint := joint?_of_getElem? hnode
  exact ⟨node, hnode, Binding.keyFor_isSome (binds_of_right hw he hjoint hm)⟩

/-! ### Activations keep the account -/

/-- An activation that adds new facts and, to the agenda, what it sets off. -/
theorem extend (h : Account net log started owed) {net' : Network} {a : Activation}
    {rest more : List Activation} {news : List Triple} (hskeleton : net'.skeleton = net.skeleton)
    (hagenda : net.agenda = a :: rest)
    (hagenda' : net'.agenda.Perm (news.map Activation.fact ++ (more ++ rest)))
    (hset : (net.setOff (log ++ [a])).Perm (net.setOff log ++ more))
    (hmemories : ∀ id : BetaId, ∀ node, net'.betas[id.index]? = some node →
      node.Holds (leftsOf id (log ++ [a])) (rightsOf id (log ++ [a])))
    (hmemory : net'.workingMemory.toList = net.workingMemory.toList ++ news) :
    Account net' (log ++ [a]) (started ++ news.map Activation.fact) owed where
  balance := by
    have hbalance := h.balance
    rw [hagenda] at hbalance
    rw [setOff_of_skeleton_eq hskeleton]
    rw [List.perm_iff_count] at hbalance hagenda' hset ⊢
    intro b
    have hb := hbalance b
    have hb' := hagenda' b
    have hb'' := hset b
    simp only [List.count_append, List.count_cons, List.count_nil] at hb hb' hb'' ⊢
    omega
  memories := hmemories
  facts := by
    have hnews : factsOf (news.map Activation.fact) = news := by
      rw [factsOf, List.filterMap_map]
      exact List.filterMap_some
    rw [hmemory, factsOf_append, hnews, List.append_assoc]
    refine (List.perm_append_comm.append_left _).trans ?_
    rw [← List.append_assoc]
    exact h.facts.append_right news
  begun := by
    have htruths : net'.skeleton.truths = net.skeleton.truths := congrArg Network.truths hskeleton
    rw [truths_skeleton, truths_skeleton] at htruths
    intro b hb
    rcases List.mem_append.mp hb with hb | hb
    · rw [htruths]
      exact h.begun b hb
    · obtain ⟨t, _, rfl⟩ := List.mem_map.mp hb
      exact .inl ⟨t, rfl⟩

theorem holds_setBeta {net : Network} {id : BetaId} {node : BetaNode}
    {lefts lefts' : BetaId → List Instantiation} {rights rights' : BetaId → List Match}
    (h : ∀ other : BetaId, ∀ node, net.betas[other.index]? = some node →
      node.Holds (lefts other) (rights other))
    (hnode : node.Holds (lefts' id) (rights' id))
    (hothers : ∀ other, other ≠ id → lefts' other = lefts other ∧ rights' other = rights other) :
    ∀ other : BetaId, ∀ node', (net.setBeta id node).betas[other.index]? = some node' →
      node'.Holds (lefts' other) (rights' other) := by
  intro other node' hnode'
  rw [setBeta, List.getElem?_set] at hnode'
  by_cases heq : id = other
  · subst heq
    rw [if_pos rfl] at hnode'
    split at hnode'
    · cases hnode'
      exact hnode
    · cases hnode'
  · have hindex : id.index ≠ other.index := by
      obtain ⟨n⟩ := id
      obtain ⟨m⟩ := other
      rintro rfl
      exact heq rfl
    rw [if_neg hindex] at hnode'
    obtain ⟨hleft, hright⟩ := hothers other (Ne.symm heq)
    rw [hleft, hright]
    exact h other node' hnode'

/-- An activation of a beta node, which files what came and emits what that adds. -/
theorem extend_emit (h : Account net log started owed) {a : Activation} {rest : List Activation}
    (hagenda : net.agenda = a :: rest) {id : BetaId} {node node' : BetaNode}
    (hclear : node'.clear = node.clear) {emitted : List Instantiation}
    (heq : { net with agenda := rest }.perform a =
      ({ net with agenda := rest }.setBeta id node').emit node' emitted)
    (hset : (net.setOff (log ++ [a])).Perm
      (net.setOff log ++ emitted.flatMap (followers node.clear)))
    (hholds : node'.Holds (leftsOf id (log ++ [a])) (rightsOf id (log ++ [a])))
    (hothers : ∀ other, other ≠ id → leftsOf other (log ++ [a]) = leftsOf other log ∧
      rightsOf other (log ++ [a]) = rightsOf other log) :
    Account ({ net with agenda := rest }.perform a) (log ++ [a])
      (started ++ [].map Activation.fact) owed := by
  have hskeleton : ({ net with agenda := rest }.perform a).skeleton = net.skeleton :=
    (skeleton_perform _ a).trans (skeleton_agenda net rest)
  have hfollowers : followers node' = followers node.clear := by
    rw [← hclear]
    rfl
  have hagenda' : ({ net with agenda := rest }.perform a).agenda =
      emitted.reverse.flatMap (followers node') ++ rest := congrArg Network.agenda heq
  refine h.extend hskeleton hagenda ?_ hset ?_ ?_
  · rw [hagenda', hfollowers]
    exact ((List.reverse_perm _).flatMap_right _).append_right rest
  · rw [heq]
    exact holds_setBeta h.memories hholds hothers
  · rw [heq, List.append_nil]
    rfl

/-- What comes to no beta node leaves the memories as they are. -/
theorem memories_untouched (h : Account net log started owed) {a : Activation}
    (ha : a.target? = none) (id : BetaId) (node : BetaNode)
    (hnode : net.betas[id.index]? = some node) :
    node.Holds (leftsOf id (log ++ [a])) (rightsOf id (log ++ [a])) := by
  have hlefts : leftsOf id (log ++ [a]) = leftsOf id log := by
    cases a <;> simp_all [Activation.left?, Activation.target?]
  have hrights : rightsOf id (log ++ [a]) = rightsOf id log := by
    cases a <;> simp_all [Activation.right?, Activation.target?]
  rw [hlefts, hrights]
  exact h.memories id node hnode

theorem perform_fire (h : Account net log started owed) {id : ProductionId} {i : Instantiation}
    {rest : List Activation} (hagenda : net.agenda = .fire id i :: rest) :
    ∃ more : List Triple, Account ({ net with agenda := rest }.fire id i) (log ++ [.fire id i])
      (started ++ more.map .fact) owed := by
  have hskeleton : ({ net with agenda := rest }.fire id i).skeleton = net.skeleton :=
    (skeleton_perform _ (.fire id i)).trans (skeleton_agenda net rest)
  have hset : (net.setOff (log ++ [.fire id i])).Perm (net.setOff log ++ []) := by
    rw [setOff_fire, List.append_nil]
  cases hp : ({ net with agenda := rest } : Network).production? id with
  | none =>
    have heq : ({ net with agenda := rest } : Network).fire id i = { net with agenda := rest } := by
      rw [fire, hp]
    rw [heq] at hskeleton ⊢
    exact ⟨[], h.extend hskeleton hagenda (.refl _) hset
      (h.memories_untouched rfl) (List.append_nil _).symm⟩
  | some p =>
    obtain ⟨s, _, news, hasserted, _⟩ := fire_spec hp i
    have hagenda' : (({ net with agenda := rest } : Network).fire id i).agenda = _ :=
      hasserted.agenda
    refine ⟨_, h.extend hskeleton hagenda ?_ hset ?_ hasserted.memory⟩
    · rw [List.nil_append]
      exact (List.Perm.of_eq hagenda').trans ((List.reverse_perm _).append_right rest)
    · rw [hasserted.betas]
      exact h.memories_untouched rfl

/-- **Every activation keeps the account**, whatever order the agenda imposes. All it begins
with is new facts. -/
theorem perform (h : Account net log started owed) (hw : net.Wired) {a : Activation}
    {rest : List Activation} (hagenda : net.agenda = a :: rest) :
    ∃ more : List Triple, Account ({ net with agenda := rest }.perform a) (log ++ [a])
      (started ++ more.map .fact) owed := by
  have hnext : a ∈ net.agenda := by
    rw [hagenda]
    exact List.mem_cons_self ..
  cases a with
  | fact t =>
    have hpopped : ({ net with agenda := rest } : Network).Wired :=
      hw.of_skeleton_eq (skeleton_agenda net rest)
    have hskeleton : ({ net with agenda := rest }.perform (.fact t)).skeleton = net.skeleton :=
      (skeleton_perform _ _).trans (skeleton_agenda net rest)
    exact ⟨[], h.extend hskeleton hagenda
      (activateAlphas_agenda hpopped.alpha t) (setOff_fact net log t) (h.memories_untouched rfl)
      (List.append_nil _).symm⟩
  | left id i =>
    obtain ⟨node, hnode, hkey⟩ := h.left_keyed hw.beta hnext
    have hpopped : ({ net with agenda := rest } : Network).betas[id.index]? = some node := hnode
    obtain ⟨node', hclear, hholds, heq⟩ := leftActivate_spec hpopped (h.memories id node hnode) hkey
    have hjoint := joint?_of_getElem? hnode
    refine ⟨_, h.extend_emit hagenda hclear heq (setOff_left hjoint log i) ?_ fun other hne => ?_⟩
    · simpa [Activation.left?, Activation.right?] using hholds
    · simp [Activation.left?, Activation.right?, Ne.symm hne]
  | right id m =>
    obtain ⟨node, hnode, hkey⟩ := h.right_keyed hw.beta hnext
    have hpopped : ({ net with agenda := rest } : Network).betas[id.index]? = some node := hnode
    obtain ⟨node', hclear, hholds, heq⟩ := rightActivate_spec hpopped (h.memories id node hnode) hkey
    have hjoint := joint?_of_getElem? hnode
    refine ⟨_, h.extend_emit hagenda hclear heq (setOff_right hjoint log m) ?_ fun other hne => ?_⟩
    · simpa [Activation.left?, Activation.right?] using hholds
    · simp [Activation.left?, Activation.right?, Ne.symm hne]
  | fire id i => exact h.perform_fire hagenda

end Account

end Network

end HornReasoner
