import HornReasoner.Proofs.Network.Plan
import HornReasoner.Proofs.Network.Run

/-! Firing rules to the end.

A production fires on matches of its body and on nothing else (`fire_sound`), and when
the agenda is empty it has fired on all of them (`fires_of_matches`). What it concluded
stays known and its blank nodes stay in the table, while facts and table grow
(`Grows`). So an empty agenda means that nothing is left to conclude. -/
namespace HornReasoner.Network

variable {net net' : Network} {fed : List Triple} {log started : List Activation}
  {owed : List Triple}

/-! ### Where productions fire -/

namespace Account

theorem mem_fire (h : Account net log started owed) (hw : net.Wired) {id : ProductionId}
    {i : Instantiation} (ha : .fire id i ∈ log ++ net.agenda) :
    (id ∈ net.truths ∧ i = {}) ∨
      ∃ terminal, net.terminal? id = some (some terminal) ∧ terminal ∈ net.betaIds ∧
        i ∈ net.outputs log terminal := by
  rcases List.mem_append.mp (h.balance.subset ha) with hin | hin
  · rcases h.begun _ hin with ⟨_, heq⟩ | ⟨_, htruth, heq⟩
    · cases heq
    · cases heq
      exact .inl ⟨htruth, rfl⟩
  · have hi : i ∈ firesOf id (net.setOff log) := (mem_firesOf _).mpr hin
    rw [firesOf_setOff log hw.production] at hi
    obtain ⟨terminal, hterminal, hi⟩ := List.mem_flatMap.mp hi
    split at hi
    · rename_i hid
      exact .inr ⟨terminal, hid, hterminal, hi⟩
    · cases hi

/-- A production fires on matches of its body only. -/
theorem fire_sound (h : Account net log started owed) (hw : net.Wired) {id : ProductionId}
    {i : Instantiation} (ha : .fire id i ∈ log ++ net.agenda) :
    ∃ rule, net.rule? id = some rule ∧ (∀ t ∈ i.support, t ∈ net.workingMemory.toList) ∧
      Matches net.builtins rule.body i.support i.binding := by
  rcases h.mem_fire hw ha with ⟨htruth, rfl⟩ | ⟨terminal, hid, _, hi⟩
  · obtain ⟨rule, hrule, hplan⟩ := hw.production.planned_none (hw.production.mem_truths.mp htruth)
    exact ⟨rule, hrule, by simp, (matches_plan_iff hplan).mpr (Matches.empty _)⟩
  · obtain ⟨rule, steps, hrule, hplan, he⟩ := hw.production.planned_some hid
    have hinstance := (mem_instances (hw.beta.evaluable _ he).2 i).mp
      (outputs_subset hw.beta h.covered he hi)
    exact ⟨rule, hrule, fun t ht => h.factsOf_subset (hinstance.1 t ht),
      (matches_plan_iff hplan).mpr hinstance.2⟩

/-- With nothing left to do, a production has fired on every match of its body. -/
theorem fires_of_matches (h : Account net log started []) (hw : net.Wired) (hagenda : net.agenda = [])
    {id : ProductionId} {rule : HornRule} (hrule : net.rule? id = some rule) {support : List Triple}
    {b : Binding} (hsupport : ∀ t ∈ support, t ∈ net.workingMemory.toList)
    (hmatch : Matches net.builtins rule.body support b) :
    (id ∈ net.truths ∧ support = [] ∧ b = ∅) ∨ .fire id ⟨support, b⟩ ∈ log := by
  obtain ⟨_, steps, hplan, hsteps⟩ := hw.production.planned id rule hrule
  have hplanned := (matches_plan_iff hplan).mp hmatch
  rcases hsteps with ⟨rfl, hnone⟩ | ⟨terminal, he, hterminal⟩
  · have hsupport : support = [] := List.forall₂_nil_left_iff.mp hplanned.facts
    subst hsupport
    exact .inl ⟨hw.production.mem_truths.mpr hnone, rfl, hplanned.binding_unique (Matches.empty _)⟩
  · have hfacts := h.factsOf_perm
    rw [hagenda, List.append_nil] at hfacts
    have hinstance : (⟨support, b⟩ : Instantiation) ∈
        instances net.builtins (factsOf log) steps := by
      refine (mem_instances (hw.beta.evaluable _ he).2 _).mpr ⟨fun t ht => ?_, hplanned⟩
      exact (List.append_nil (factsOf log) ▸ hfacts).symm.subset (hsupport t ht)
    have hout := (outputs_perm hw.beta (h.delivered hagenda) he).symm.subset hinstance
    rw [← firesOf_setOff_terminal log hw hterminal (hw.beta.mem_betaIds he)] at hout
    have hbalance := h.balance
    rw [hagenda, List.append_nil] at hbalance
    exact .inr (hbalance.symm.subset (List.mem_append_right _ ((mem_firesOf _).mp hout)))

end Account

/-! ### Growth -/

/-- Rules, facts and blank nodes of `net` are those of `net'`, where more may have come. -/
structure Grows (net net' : Network) : Prop where
  builtins : net'.builtins = net.builtins
  rules : ∀ id rule, net.rule? id = some rule → net'.rule? id = some rule
  memory : net.workingMemory.toList <+: net'.workingMemory.toList
  inferred : ∀ t ∈ net.inferred.toList, t ∈ net'.inferred.toList
  minted : net.skolem.minted <+: net'.skolem.minted

theorem Grows.refl (net : Network) : Grows net net :=
  ⟨rfl, fun _ _ h => h, List.prefix_rfl, fun _ h => h, List.prefix_rfl⟩

theorem Grows.trans {net'' : Network} (h : Grows net net') (h' : Grows net' net'') :
    Grows net net'' :=
  ⟨h'.builtins.trans h.builtins, fun id rule hr => h'.rules id rule (h.rules id rule hr),
    h.memory.trans h'.memory, fun t ht => h'.inferred t (h.inferred t ht),
    h.minted.trans h'.minted⟩

/-- What a firing leaves behind: blank nodes in the table, and the instances of the head
among the facts. -/
def Held (net : Network) (id : ProductionId) (rule : HornRule) (i : Instantiation) : Prop :=
  ∃ fresh, net.witnesses id rule i.support = some fresh ∧ ∀ atom ∈ rule.head, ∀ t,
    atom.substitute (i.binding.insertAllIfNew fresh) = .ok t → t ∈ net.workingMemory.toList

/-- A rule concludes the triple from a match in the facts. -/
def Concludes (net : Network) (facts : List Triple) (t : Triple) : Prop :=
  ∃ id rule, ∃ i : Instantiation, ∃ fresh,
    net.rule? id = some rule ∧ (∀ u ∈ i.support, u ∈ facts) ∧
    Matches net.builtins rule.body i.support i.binding ∧
    net.witnesses id rule i.support = some fresh ∧
    ∃ atom ∈ rule.head, atom.substitute (i.binding.insertAllIfNew fresh) = .ok t

namespace Grows

theorem witnesses (h : Grows net net') {id : ProductionId} {rule : HornRule} {support : List Triple}
    {fresh : List (Variable × Term)} (hf : net.witnesses id rule support = some fresh) :
    net'.witnesses id rule support = some fresh := by
  unfold Network.witnesses at hf ⊢
  split
  · rename_i hempty
    rw [if_pos hempty] at hf
    exact hf
  · rename_i hexistentials
    rw [if_neg hexistentials] at hf
    obtain ⟨more, hmore⟩ := h.minted
    rw [← hmore, List.lookup_append, hf, Option.some_or]

theorem held (h : Grows net net') {id : ProductionId} {rule : HornRule} {i : Instantiation}
    (hi : net.Held id rule i) : net'.Held id rule i := by
  obtain ⟨fresh, hfresh, hall⟩ := hi
  exact ⟨fresh, h.witnesses hfresh, fun atom hatom t ht => h.memory.subset (hall atom hatom t ht)⟩

theorem concludes (h : Grows net net') {facts : List Triple} {t : Triple}
    (ht : net.Concludes facts t) : net'.Concludes facts t := by
  obtain ⟨id, rule, i, fresh, hrule, hsupport, hmatch, hfresh, hhead⟩ := ht
  exact ⟨id, rule, i, fresh, h.rules id rule hrule, hsupport, h.builtins ▸ hmatch,
    h.witnesses hfresh, hhead⟩

end Grows

/-- Facts are fed or inferred, each inferred one is concluded from facts before it, and
every entry of the table belongs to a rule. -/
structure Grounded (net : Network) (fed : List Triple) : Prop where
  kept : ∀ t ∈ fed, t ∈ net.workingMemory.toList
  origin : ∀ t ∈ net.workingMemory.toList, t ∈ fed ∨ t ∈ net.inferred.toList
  inferred : ∀ t ∈ net.inferred.toList, ∃ before after,
    net.workingMemory.toList = before ++ t :: after ∧ net.Concludes before t
  minted : ∀ e ∈ net.skolem.minted, ∃ rule, net.rule? e.1.1 = some rule ∧
    e.2.map Prod.fst = rule.existentials

/-! ### A run -/

/-- The invariant of a run: the account balances, what fired has its conclusions, and
facts are grounded. -/
structure Running (net : Network) (fed : List Triple) (log started : List Activation)
    (owed : List Triple) : Prop where
  wired : net.Wired
  account : Account net log started owed
  held : ∀ id i, .fire id i ∈ log → ∀ rule, net.rule? id = some rule → net.Held id rule i
  grounded : net.Grounded fed

theorem Concludes.mono {facts more : List Triple} (hmore : ∀ t ∈ facts, t ∈ more) {t : Triple}
    (h : net.Concludes facts t) : net.Concludes more t := by
  obtain ⟨id, rule, i, fresh, hrule, hsupport, hrest⟩ := h
  exact ⟨id, rule, i, fresh, hrule, fun u hu => hmore u (hsupport u hu), hrest⟩

/-- New facts that are concluded from what stands before them keep the facts grounded. -/
theorem Grounded.extend (h : net.Grounded fed) (hgrows : Grows net net') {news : List Triple}
    (hmemory : net'.workingMemory.toList = net.workingMemory.toList ++ news)
    (hinferred : ∀ t, t ∈ net'.inferred.toList ↔ t ∈ net.inferred.toList ∨ t ∈ news)
    (hconcludes : ∀ t ∈ news, net'.Concludes net.workingMemory.toList t)
    (hminted : ∀ e ∈ net'.skolem.minted, e ∈ net.skolem.minted ∨
      ∃ rule, net'.rule? e.1.1 = some rule ∧ e.2.map Prod.fst = rule.existentials) :
    net'.Grounded fed where
  kept t ht := hgrows.memory.subset (h.kept t ht)
  origin t ht := by
    rw [hmemory] at ht
    rw [hinferred]
    rcases List.mem_append.mp ht with ht | ht
    · exact (h.origin t ht).imp_right .inl
    · exact .inr (.inr ht)
  inferred t ht := by
    rw [hmemory]
    rcases (hinferred t).mp ht with ht | ht
    · obtain ⟨before, after, hsplit, hbefore⟩ := h.inferred t ht
      refine ⟨before, after ++ news, ?_, hgrows.concludes hbefore⟩
      rw [hsplit, List.append_assoc, List.cons_append]
    · obtain ⟨first, others, hsplit⟩ := List.append_of_mem ht
      refine ⟨net.workingMemory.toList ++ first, others, ?_, ?_⟩
      · rw [hsplit, List.append_assoc]
      · exact (hconcludes t ht).mono fun u hu => List.mem_append_left _ hu
  minted e he := by
    rcases hminted e he with he | hnew
    · obtain ⟨rule, hrule, hkeys⟩ := h.minted e he
      exact ⟨rule, hgrows.rules _ rule hrule, hkeys⟩
    · exact hnew

theorem Grounded.of_same (h : net.Grounded fed) (hgrows : Grows net net')
    (hmemory : net'.workingMemory = net.workingMemory) (hinferred : net'.inferred = net.inferred)
    (hskolem : net'.skolem = net.skolem) : net'.Grounded fed := by
  refine h.extend hgrows (by rw [hmemory, List.append_nil]) (fun t => ?_)
    (List.forall_mem_nil _) fun e he => .inl ?_
  · simp [hinferred]
  · rw [← hskolem]
    exact he

theorem rule?_of_skeleton_eq (h : net'.skeleton = net.skeleton) (id : ProductionId) :
    net'.rule? id = net.rule? id := by
  rw [← rule?_skeleton, h, rule?_skeleton]

theorem builtins_of_skeleton_eq (h : net'.skeleton = net.skeleton) :
    net'.builtins = net.builtins := by
  rw [← builtins_skeleton, h, builtins_skeleton]

/-- An activation that leaves facts and table as they are. -/
theorem Grows.of_same (hskeleton : net'.skeleton = net.skeleton)
    (hmemory : net'.workingMemory = net.workingMemory) (hinferred : net'.inferred = net.inferred)
    (hskolem : net'.skolem = net.skolem) : Grows net net' where
  builtins := builtins_of_skeleton_eq hskeleton
  rules := fun id rule h => (rule?_of_skeleton_eq hskeleton id).trans h
  memory := hmemory ▸ List.prefix_rfl
  inferred := by
    rw [hinferred]
    exact fun _ h => h
  minted := hskolem ▸ List.prefix_rfl

theorem grows_ready {id : ProductionId} {p : Production} (hp : net.production? id = some p)
    (i : Instantiation) : Grows net (net.ready id p i) where
  builtins := rfl
  rules other _ hrule := (rule?_of_skeleton_eq (skeleton_ready hp i) other).trans hrule
  memory := List.prefix_rfl
  inferred _ ht := ht
  minted := (minting_spec net id p i).1

theorem Asserted.grows {news : List Triple} (h : Asserted net net' news)
    (hskeleton : net'.skeleton = net.skeleton) : Grows net net' where
  builtins := builtins_of_skeleton_eq hskeleton
  rules id _ hrule := (rule?_of_skeleton_eq hskeleton id).trans hrule
  memory := h.memory ▸ List.prefix_append _ _
  inferred t ht := (h.inferred t).mpr (.inl ht)
  minted := h.skolem ▸ List.prefix_rfl

/-- A firing on a match concludes what it adds. -/
theorem fire_grows (hg : net.Grounded fed) {id : ProductionId} {rule : HornRule}
    (hrule : net.rule? id = some rule) {i : Instantiation}
    (hsupport : ∀ t ∈ i.support, t ∈ net.workingMemory.toList)
    (hmatch : Matches net.builtins rule.body i.support i.binding) :
    Grows net (net.fire id i) ∧ (net.fire id i).Held id rule i ∧ (net.fire id i).Grounded fed := by
  obtain ⟨p, hp, rfl⟩ := Option.map_eq_some_iff.mp hrule
  obtain ⟨s, fresh, news, hasserted, hkept, hentries, hfresh, hnews, hall⟩ := fire_spec hp i
  have hskeleton := skeleton_fire net id i
  have hmemory : (net.fire id i).workingMemory.toList = net.workingMemory.toList ++ news :=
    hasserted.memory
  have hinferred : ∀ t, t ∈ (net.fire id i).inferred.toList ↔
      t ∈ net.inferred.toList ∨ t ∈ news := hasserted.inferred
  have hskolem : (net.fire id i).skolem = s := hasserted.skolem
  have hgrows : Grows net (net.fire id i) :=
    { builtins := builtins_of_skeleton_eq hskeleton
      rules := fun other rule h => (rule?_of_skeleton_eq hskeleton other).trans h
      memory := hmemory ▸ List.prefix_append _ _
      inferred := fun t ht => (hinferred t).mpr (.inl ht)
      minted := hskolem ▸ hkept }
  have hconcludes : ∀ t ∈ news, (net.fire id i).Concludes net.workingMemory.toList t :=
    fun t ht => ⟨id, p.rule, i, fresh, hgrows.rules id _ hrule, hsupport,
      hgrows.builtins ▸ hmatch, hfresh, hnews t ht⟩
  refine ⟨hgrows, ⟨fresh, hfresh, hall⟩, hg.extend hgrows hmemory hinferred hconcludes ?_⟩
  intro e he
  rw [hskolem] at he
  exact (hentries e he).imp_right fun ⟨hkey, hkeys⟩ =>
    ⟨p.rule, hkey ▸ hgrows.rules id _ hrule, hkeys⟩

/-- Facts, table and books of `net'` are those of `net`. -/
structure SameFacts (net net' : Network) : Prop where
  memory : net'.workingMemory = net.workingMemory
  inferred : net'.inferred = net.inferred
  skolem : net'.skolem = net.skolem
  provenance : net'.provenance = net.provenance
  productions : net'.productions = net.productions
  firings : net'.firings = net.firings

/-- Only a firing changes what is known. -/
theorem perform_same (net : Network) {a : Activation} (h : ∀ id i, a ≠ .fire id i) :
    SameFacts net (net.perform a) := by
  cases a with
  | fact t => exact ⟨rfl, rfl, rfl, rfl, rfl, rfl⟩
  | left id i =>
    simp only [perform, leftActivate]
    split
    · exact ⟨rfl, rfl, rfl, rfl, rfl, rfl⟩
    · split <;> exact ⟨rfl, rfl, rfl, rfl, rfl, rfl⟩
  | right id m =>
    simp only [perform, rightActivate]
    split <;> exact ⟨rfl, rfl, rfl, rfl, rfl, rfl⟩
  | fire id i => exact absurd rfl (h id i)

/-- What fired keeps its conclusions, so only the activation itself is left to look at. -/
theorem Running.extend (h : Running net fed log started owed) {a : Activation}
    {more : List Activation} (hskeleton : net'.skeleton = net.skeleton)
    (haccount : Account net' (log ++ [a]) more owed) (hgrows : Grows net net')
    (hgrounded : net'.Grounded fed)
    (hnew : ∀ id i, a = .fire id i → ∀ rule, net.rule? id = some rule → net'.Held id rule i) :
    Running net' fed (log ++ [a]) more owed where
  wired := h.wired.of_skeleton_eq hskeleton
  account := haccount
  held id i hfire rule hrule := by
    rw [rule?_of_skeleton_eq hskeleton] at hrule
    rcases List.mem_append.mp hfire with hfire | hfire
    · exact hgrows.held (h.held id i hfire rule hrule)
    · exact hnew id i (List.mem_singleton.mp hfire).symm rule hrule
  grounded := hgrounded

/-- **Every activation keeps the invariant of a run.** -/
theorem Running.perform (h : Running net fed log started owed) {a : Activation}
    {rest : List Activation} (hagenda : net.agenda = a :: rest) :
    ∃ more : List Triple, Running ({ net with agenda := rest }.perform a) fed (log ++ [a])
      (started ++ more.map .fact) owed ∧ Grows net ({ net with agenda := rest }.perform a) := by
  obtain ⟨more, haccount⟩ := h.account.perform h.wired hagenda
  have hskeleton : ({ net with agenda := rest }.perform a).skeleton = net.skeleton :=
    (skeleton_perform _ a).trans (skeleton_agenda net rest)
  have hother : (∀ id i, a ≠ .fire id i) →
      Running ({ net with agenda := rest }.perform a) fed (log ++ [a]) (started ++ more.map .fact)
        owed ∧ Grows net ({ net with agenda := rest }.perform a) := by
    intro hnot
    have hsame := perform_same { net with agenda := rest } hnot
    have hgrows := Grows.of_same hskeleton hsame.memory hsame.inferred hsame.skolem
    exact ⟨h.extend hskeleton haccount hgrows
      (h.grounded.of_same hgrows hsame.memory hsame.inferred hsame.skolem)
      fun id i heq => absurd heq (hnot id i), hgrows⟩
  refine ⟨more, ?_⟩
  cases a with
  | fact t | left id i | right id m => exact hother (by simp)
  | fire id i =>
    have hnext : .fire id i ∈ log ++ net.agenda := by
      rw [hagenda]
      simp
    obtain ⟨rule, hrule, hsupport, hmatch⟩ := h.account.fire_sound h.wired hnext
    have hpopped : Grows net { net with agenda := rest } := .of_same rfl rfl rfl rfl
    obtain ⟨hgrows, hdone, hgrounded⟩ := fire_grows (h.grounded.of_same hpopped rfl rfl rfl)
      (hpopped.rules id rule hrule) hsupport hmatch
    refine ⟨h.extend hskeleton haccount (hpopped.trans hgrows) hgrounded ?_, hpopped.trans hgrows⟩
    intro other j heq rule' hrule'
    cases heq
    cases hrule.symm.trans hrule'
    exact hdone

/-- What one activation keeps, a run keeps. -/
theorem drain_induction {P : Network → List Activation → Prop}
    (hstep : ∀ net log a rest, P net log → net.agenda = a :: rest →
      P ({ net with agenda := rest }.perform a) (log ++ [a]))
    (budget : Nat) {net net' : Network} (log : List Activation) (h : P net log)
    (hd : drain budget net = some net') : ∃ log', P net' log' ∧ net'.agenda = [] := by
  induction budget generalizing net log with
  | zero =>
    rw [drain] at hd
    split at hd
    · rename_i hempty
      cases hd
      exact ⟨log, h, List.isEmpty_iff.mp hempty⟩
    · cases hd
  | succ budget ih =>
    rw [drain] at hd
    split at hd
    · rename_i hempty
      cases hd
      exact ⟨log, h, hempty⟩
    · rename_i a rest hagenda
      exact ih _ (hstep net log a rest h hagenda) hd

/-- **A run keeps its invariant and ends with an empty agenda.** What it was begun with has
been done then. -/
theorem Running.drain (h : Running net fed log started owed) {budget : Nat}
    (hd : drain budget net = some net') :
    net'.agenda = [] ∧ Grows net net' ∧
      ∃ log' more, Running net' fed log' (started ++ more) owed ∧ started ⊆ log' := by
  obtain ⟨log', ⟨⟨more, hrunning⟩, hgrows⟩, hagenda⟩ := drain_induction
    (P := fun other log =>
      (∃ more, Running other fed log (started ++ more) owed) ∧ Grows net other)
    (fun other log a rest ⟨⟨more, hother⟩, hgrows⟩ hagenda => by
      obtain ⟨news, hnext, hmore⟩ := hother.perform hagenda
      rw [List.append_assoc] at hnext
      exact ⟨⟨_, hnext⟩, hgrows.trans hmore⟩)
    budget log ⟨⟨[], (List.append_nil started).symm ▸ h⟩, .refl net⟩ hd
  have hdone := hrunning.account.balance.symm.subset
  rw [hagenda, List.append_nil] at hdone
  exact ⟨hagenda, hgrows, log', more, hrunning, fun a ha =>
    hdone (List.mem_append_left _ (List.mem_append_left _ ha))⟩

end HornReasoner.Network
