import HornReasoner.Proofs.Network.Chase

/-! The state between calls.

A network rests if its agenda is empty and the run that led there kept its invariant; some
truths may still have to be asserted. Asserting them, replaying the facts, feeding and
forgetting lead from rest to rest. -/
namespace HornReasoner.Network

variable {net net' : Network} {fed : List Triple} {log started : List Activation}
  {owed : List Triple}

/-- Nothing is left to do, except to assert the truths `pending`. -/
structure Resting (net : Network) (fed : List Triple) (pending : List ProductionId) : Prop where
  idle : net.agenda = []
  running : ∃ log started, Running net fed log started []
  truths : ∀ id ∈ net.truths, id ∉ pending → ∀ rule, net.rule? id = some rule →
    net.Held id rule {}

/-- `net'` has the connections of `net` and whatever `net` knows, and is idle. -/
structure Advanced (net net' : Network) : Prop where
  idle : net'.agenda = []
  skeleton : net'.skeleton = net.skeleton
  grows : Grows net net'

theorem Advanced.refl (h : net.agenda = []) : Advanced net net := ⟨h, rfl, .refl net⟩

theorem Advanced.trans {net'' : Network} (h : Advanced net net') (h' : Advanced net' net'') :
    Advanced net net'' :=
  ⟨h'.idle, h'.skeleton.trans h.skeleton, h.grows.trans h'.grows⟩

theorem truths_of_skeleton_eq (h : net'.skeleton = net.skeleton) : net'.truths = net.truths := by
  rw [← truths_skeleton, h, truths_skeleton]

/-- What a truth concluded stays. -/
theorem Advanced.held (h : Advanced net net') {id : ProductionId} {i : Instantiation}
    (hi : ∀ rule, net.rule? id = some rule → net.Held id rule i) :
    ∀ rule, net'.rule? id = some rule → net'.Held id rule i := by
  intro rule hrule
  rw [rule?_of_skeleton_eq h.skeleton] at hrule
  exact h.grows.held (hi rule hrule)

theorem skeleton_drain {budget : Nat} (hd : drain budget net = some net') :
    net'.skeleton = net.skeleton := by
  obtain ⟨_, hskeleton, _⟩ := drain_induction (P := fun other _ => other.skeleton = net.skeleton)
    (fun other _ a rest h _ => (skeleton_perform _ a).trans ((skeleton_agenda other rest).trans h))
    budget [] rfl hd
  exact hskeleton

theorem skeleton_run {budget : Nat} {a : Activation} (h : net.run budget a = some net') :
    net'.skeleton = net.skeleton :=
  (skeleton_drain h).trans rfl

/-! ### Runs from rest -/

theorem toList_insert_of_new {t : Triple} (ht : t ∉ net.workingMemory.toList) :
    (net.workingMemory.insert t).toList = net.workingMemory.toList ++ [t] := by
  rw [Graph.toList_insert, if_neg ht]

theorem grows_insert {t : Triple} (ht : t ∉ net.workingMemory.toList) :
    Grows net { net with workingMemory := net.workingMemory.insert t } where
  builtins := rfl
  rules _ _ hrule := hrule
  memory := toList_insert_of_new ht ▸ List.prefix_append _ _
  inferred _ hu := hu
  minted := List.prefix_rfl

namespace Running

/-- A run can be begun with a fact that is owed or with a truth. -/
theorem push (h : Running net fed log started owed) {a : Activation} {owed' : List Triple}
    (hbegun : (∃ t, a = .fact t) ∨ ∃ id ∈ net.truths, a = .fire id {})
    (hfacts : factsOf [a] ++ owed' = owed) :
    Running { net with agenda := a :: net.agenda } fed log (started ++ [a]) owed' where
  wired := h.wired.of_skeleton_eq rfl
  account :=
    { balance := by
        have hbalance := h.account.balance
        have hset : ({ net with agenda := a :: net.agenda } : Network).setOff log =
          net.setOff log := rfl
        rw [hset]
        rw [List.perm_iff_count] at hbalance ⊢
        intro b
        have hb := hbalance b
        simp only [List.count_append, List.count_cons, List.count_nil] at hb ⊢
        omega
      memories := h.account.memories
      facts := by
        rw [factsOf_append, List.append_assoc, hfacts]
        exact h.account.facts
      begun := by
        intro b hb
        rcases List.mem_append.mp hb with hb | hb
        · exact h.account.begun b hb
        · exact List.mem_singleton.mp hb ▸ hbegun }
  held := h.held
  grounded := h.grounded.of_same (.of_same rfl rfl rfl rfl) rfl rfl rfl

/-- What a run does that begins at rest. -/
theorem run (h : Running net fed log started owed) {a : Activation} {owed' : List Triple}
    (hbegun : (∃ t, a = .fact t) ∨ ∃ id ∈ net.truths, a = .fire id {})
    (hfacts : factsOf [a] ++ owed' = owed) {budget : Nat} (hr : net.run budget a = some net') :
    Advanced net net' ∧ ∃ log' started', Running net' fed log' started' owed' ∧ a ∈ log' := by
  have hsame : Grows net { net with agenda := a :: net.agenda } := .of_same rfl rfl rfl rfl
  obtain ⟨hidle, hgrows, log', more, hrunning, hdone⟩ := (h.push hbegun hfacts).drain hr
  have hskeleton : net'.skeleton = ({ net with agenda := a :: net.agenda } : Network).skeleton :=
    skeleton_drain hr
  exact ⟨⟨hidle, hskeleton, hsame.trans hgrows⟩, log', _, hrunning, hdone (by simp)⟩

/-- A fact that was not known is owed. -/
theorem insert (h : Running net fed log started owed) {t : Triple}
    (ht : t ∉ net.workingMemory.toList) :
    Running { net with workingMemory := net.workingMemory.insert t } (fed ++ [t]) log started
      (t :: owed) := by
  have hmemory := toList_insert_of_new ht
  have hgrows := grows_insert ht
  refine ⟨h.wired.of_skeleton_eq rfl, ⟨h.account.balance, h.account.memories, ?_, h.account.begun⟩,
    fun id i hfire rule hrule => hgrows.held (h.held id i hfire rule hrule), ?_, ?_, ?_, ?_⟩
  · dsimp only
    rw [hmemory]
    exact List.perm_middle.trans
      ((h.account.facts.cons t).trans (List.perm_append_singleton t _).symm)
  · intro u hu
    rw [mem_insert]
    rcases List.mem_append.mp hu with hu | hu
    · exact .inl (h.grounded.kept u hu)
    · exact .inr (List.mem_singleton.mp hu)
  · intro u hu
    rcases (mem_insert _ t u).mp hu with hu | rfl
    · exact (h.grounded.origin u hu).imp_left (List.mem_append_left _)
    · exact .inl (by simp)
  · intro u hu
    obtain ⟨before, after, hsplit, hconcludes⟩ := h.grounded.inferred u hu
    refine ⟨before, after ++ [t], ?_, hgrows.concludes hconcludes⟩
    dsimp only
    rw [hmemory, hsplit, List.append_assoc, List.cons_append]
  · exact h.grounded.minted

end Running

/-! ### Calls -/

/-- Asserting what is pending. -/
theorem Resting.assertTruths {ids : List ProductionId} (h : net.Resting fed ids)
    (hids : ∀ id ∈ ids, id ∈ net.truths) {budget : Nat}
    (ha : net.assertTruths budget ids = some net') : Advanced net net' ∧ net'.Resting fed [] := by
  induction ids generalizing net with
  | nil =>
    cases ha
    exact ⟨.refl h.idle, h⟩
  | cons id rest ih =>
    obtain ⟨log, started, hrunning⟩ := h.running
    rw [Network.assertTruths, List.foldlM_cons] at ha
    obtain ⟨next, hr, hrest⟩ := Option.bind_eq_some_iff.mp ha
    obtain ⟨hadvanced, log', started', hnext, hdone⟩ :=
      hrunning.run (.inr ⟨id, hids id (List.mem_cons_self ..), rfl⟩) (List.nil_append _) hr
    have htruths := truths_of_skeleton_eq hadvanced.skeleton
    have hresting : next.Resting fed rest := by
      refine ⟨hadvanced.idle, ⟨log', started', hnext⟩, fun other hother hnot => ?_⟩
      by_cases heq : other = id
      · subst heq
        exact hnext.held other {} hdone
      · refine hadvanced.held (h.truths other (htruths ▸ hother) ?_)
        simp [heq, hnot]
    obtain ⟨hmore, hfinal⟩ := ih hresting
      (fun other hother => htruths ▸ hids other (List.mem_cons_of_mem _ hother)) hrest
    exact ⟨hadvanced.trans hmore, hfinal⟩

/-- Running through the facts that are owed. -/
theorem Running.foldlM_run {facts : List Triple} (h : Running net fed log started facts)
    (hidle : net.agenda = []) {budget : Nat}
    (hf : facts.foldlM (fun net fact => Network.run budget net (.fact fact)) net = some net') :
    Advanced net net' ∧ ∃ log' started', Running net' fed log' started' [] := by
  induction facts generalizing net log started with
  | nil =>
    cases hf
    exact ⟨.refl hidle, log, started, h⟩
  | cons fact rest ih =>
    rw [List.foldlM_cons] at hf
    obtain ⟨next, hr, hrest⟩ := Option.bind_eq_some_iff.mp hf
    obtain ⟨hadvanced, log', started', hnext, _⟩ := h.run (.inl ⟨fact, rfl⟩) rfl hr
    obtain ⟨hmore, hfinal⟩ := ih hnext hadvanced.idle hrest
    exact ⟨hadvanced.trans hmore, hfinal⟩

theorem setOff_nil (net : Network) : net.setOff [] = [] := by
  have houtputs : ∀ id, net.outputs [] id = [] := by
    intro id
    rw [outputs]
    cases net.joint? id with
    | none => rfl
    | some node =>
      rw [Option.map_some, Option.getD_some, BetaNode.emitted]
      cases node.right <;> rfl
  rw [setOff, List.append_eq_nil_iff]
  refine ⟨rfl, List.flatMap_eq_nil_iff.mpr fun id _ => ?_⟩
  rw [houtputs]
  rfl

/-- With empty memories all facts are owed. -/
theorem Running.start (hwired : net.Wired) (hidle : net.agenda = []) (hgrounded : net.Grounded fed)
    (hempty : ∀ node ∈ net.betas, node.leftMemory = [] ∧ node.rightMemory = []) :
    Running net fed [] [] net.workingMemory.toList where
  wired := hwired
  account :=
    { balance := by rw [hidle, setOff_nil]
      memories := by
        intro id node hnode
        obtain ⟨hleft, hright⟩ := hempty node (List.mem_of_getElem? hnode)
        exact .nil hleft hright
      facts := .refl _
      begun := by simp }
  held := by simp
  grounded := hgrounded

theorem skeleton_cleared (net : Network) :
    ({ net with betas := net.betas.map BetaNode.clear } : Network).skeleton = net.skeleton := by
  simp only [skeleton, List.map_map]
  rfl

/-- With the memories cleared all facts are owed. -/
theorem Running.cleared (hwired : net.Wired) (hidle : net.agenda = []) (hgrounded : net.Grounded fed) :
    Running { net with betas := net.betas.map BetaNode.clear } fed [] []
      net.workingMemory.toList := by
  have hsame : Grows net { net with betas := net.betas.map BetaNode.clear } :=
    .of_same net.skeleton_cleared rfl rfl rfl
  refine .start (hwired.of_skeleton_eq net.skeleton_cleared) hidle
    (hgrounded.of_same hsame rfl rfl rfl) fun node hnode => ?_
  obtain ⟨old, _, rfl⟩ := List.mem_map.mp hnode
  exact ⟨rfl, rfl⟩

/-- Running all facts through the network again. -/
theorem replay_spec (hwired : net.Wired) (hidle : net.agenda = []) (hgrounded : net.Grounded fed)
    {budget : Nat} (hr : net.replay budget = some net') :
    Advanced net net' ∧ ∃ log started, Running net' fed log started [] := by
  have hsame : Grows net { net with betas := net.betas.map BetaNode.clear } :=
    .of_same net.skeleton_cleared rfl rfl rfl
  obtain ⟨hadvanced, hfinal⟩ := (Running.cleared hwired hidle hgrounded).foldlM_run hidle hr
  exact ⟨⟨hadvanced.idle, hadvanced.skeleton.trans net.skeleton_cleared, hsame.trans hadvanced.grows⟩, hfinal⟩

theorem Resting.wired {pending : List ProductionId} (h : net.Resting fed pending) : net.Wired := by
  obtain ⟨_, _, hrunning⟩ := h.running
  exact hrunning.wired

/-- A network without its facts. -/
def forgotten (net : Network) : Network := { net.skeleton with cancellation := net.cancellation }

theorem skeleton_forgotten (net : Network) : net.forgotten.skeleton = net.skeleton := by
  simp only [forgotten, skeleton, List.map_map, SkolemTable.clear]
  rfl

theorem Running.forgotten (hwired : net.Wired) : Running net.forgotten [] [] [] [] := by
  refine .start (hwired.of_skeleton_eq net.skeleton_forgotten) rfl ?_ fun node hnode => ?_
  · exact ⟨by simp, fun t ht => absurd ht List.not_mem_nil, fun t ht => absurd ht List.not_mem_nil,
      fun e he => absurd he List.not_mem_nil⟩
  · obtain ⟨old, _, rfl⟩ := List.mem_map.mp hnode
    exact ⟨rfl, rfl⟩

/-- Forgetting all facts. -/
theorem reset_spec (hwired : net.Wired) {budget : Nat} (hr : net.reset budget = some net') :
    net'.skeleton = net.skeleton ∧ net'.Resting [] [] := by
  have hresting : net.forgotten.Resting [] net.truths :=
    ⟨rfl, ⟨[], [], .forgotten hwired⟩, fun id hid hnot => absurd hid hnot⟩
  obtain ⟨hadvanced, hfinal⟩ := hresting.assertTruths (fun _ hid => hid) hr
  exact ⟨hadvanced.skeleton.trans net.skeleton_forgotten, hfinal⟩

/-- A fact that is known already. -/
theorem Running.offer (h : Running net fed log started owed) {t : Triple}
    (ht : t ∈ net.workingMemory.toList) : Running net (fed ++ [t]) log started owed := by
  refine ⟨h.wired, h.account, h.held, fun u hu => ?_, fun u hu => ?_, h.grounded.inferred,
    h.grounded.minted⟩
  · rcases List.mem_append.mp hu with hu | hu
    · exact h.grounded.kept u hu
    · exact List.mem_singleton.mp hu ▸ ht
  · exact (h.grounded.origin u hu).imp_left (List.mem_append_left _)

/-- Feeding a fact that is new. -/
theorem Resting.feed_new (h : net.Resting fed []) {t : Triple} (ht : t ∉ net.workingMemory.toList)
    {budget : Nat} (hr : Network.run budget { net with workingMemory := net.workingMemory.insert t }
      (.fact t) = some net') : net'.skeleton = net.skeleton ∧ net'.Resting (fed ++ [t]) [] := by
  obtain ⟨log, started, hrunning⟩ := h.running
  obtain ⟨hadvanced, log', started', hfinal, _⟩ := (hrunning.insert ht).run (.inl ⟨t, rfl⟩) rfl hr
  have hgrows := grows_insert ht
  have htruths : net'.truths = net.truths := truths_of_skeleton_eq hadvanced.skeleton
  refine ⟨hadvanced.skeleton, hadvanced.idle, ⟨log', started', hfinal⟩, fun id hid hnone => ?_⟩
  exact hadvanced.held fun rule hrule =>
    hgrows.held (h.truths id (htruths ▸ hid) hnone rule hrule)

/-- Feeding a fact that is known. -/
theorem Resting.feed_known (h : net.Resting fed []) {t : Triple}
    (ht : t ∈ net.workingMemory.toList) : net.Resting (fed ++ [t]) [] := by
  obtain ⟨log, started, hrunning⟩ := h.running
  exact ⟨h.idle, ⟨log, started, hrunning.offer ht⟩, h.truths⟩

end HornReasoner.Network
