import HornReasoner.Proofs.Network.Interpretation
import HornReasoner.Proofs.Network.Invariant
import HornReasoner.Proofs.Network.Placement

/-! Values that are asked for.

What reaches a node covers the plan of its parent, so it binds the variables that the node joins
on or tests. What reaches a production matches its body, and blank nodes stand for the other
variables of the head. Hence every activation finds the values it needs (`Course.supplied`), and
no head is ever left out. -/
namespace HornReasoner

theorem Term.exists_resolve {b : Binding} {x : Term}
    (h : ∀ v, x.var? = some v → b.contains v = true) : ∃ y, x.resolve b = some y := by
  rw [← Option.isSome_iff_exists, resolve_isSome]
  cases hx : x.var? with
  | none => rfl
  | some v => exact h v hx

namespace Network
variable {net : Network} {log : List Activation} {fed : List Triple}

/-- The activation finds its node or production, and there a value for each variable that is
looked up: the join variables, the arguments of a test, the variables of a head. -/
def Supplied (net : Network) : Activation → Prop
  | .fact _ => True
  | .left id i => ∃ node, net.betas[id.index]? = some node ∧
      (∀ v ∈ node.joinVars, i.binding.contains v = true) ∧
      (i.binding.keyFor node.joinVars).isSome ∧
      ∀ predicate pattern, node.right = .builtin predicate pattern →
        (∀ v ∈ pattern.vars, i.binding.contains v = true) ∧
        ∃ subject object, pattern.subject.resolve i.binding = some subject ∧
          pattern.object.resolve i.binding = some object
  | .right id m => ∃ node, net.betas[id.index]? = some node ∧
      (∀ v ∈ node.joinVars, m.binding.contains v = true) ∧
      (m.binding.keyFor node.joinVars).isSome
  | .fire id i => ∃ p, net.production? id = some p ∧ ∀ atom ∈ p.rule.head,
      ∃ t, atom.substitute (i.binding.insertAllIfNew (net.minting id p i).2) = .ok t

/-- The network when the next activation was performed. -/
def step (net : Network) : Network :=
  match net.agenda with
  | [] => net
  | a :: rest => { net with agenda := rest }.perform a

/-- What comes to a test binds its variables. -/
theorem binds_of_test (h : net.BetaWired) (hc : net.Covered log) {steps : List PlanStep}
    {id : BetaId} (he : (steps, id) ∈ net.planIndex) {node : BetaNode}
    (hnode : net.joint? id = some node) {predicate : String} {pattern : Triple}
    (hright : node.right = .builtin predicate pattern) {i : Instantiation}
    (hi : i ∈ leftsOf id (net.setOff log)) : ∀ v ∈ pattern.vars, i.binding.contains v = true := by
  obtain ⟨done, parent, rfl, hp, -⟩ := h.node_of_builtin he hnode hright
  rw [leftsOf_setOff_child log h he hp] at hi
  have hmatch := (mem_instances (h.evaluable _ hp).2 i).mp (outputs_subset h hc hp hi)
  obtain ⟨-, -, -, hbound⟩ := (h.evaluable _ he).2.of_snoc
  exact fun v hv => (hmatch.2.domain v).mpr (hbound v hv)

/-- A firing on a match gets a blank node for each existential variable. -/
theorem Grounded.keys_minting (h : net.Grounded fed) {id : ProductionId} {p : Production}
    (hp : net.production? id = some p) {i : Instantiation}
    (hsupport : ∀ t ∈ i.support, t ∈ net.workingMemory.toList)
    (hmatch : Matches net.builtins p.rule.body i.support i.binding) :
    (net.minting id p i).2.map Prod.fst = p.rule.existentials := by
  have hrule := rule?_of_production? hp
  obtain ⟨hgrows, _, hgrounded⟩ := fire_grows h hrule hsupport hmatch
  exact hgrounded.keys (hgrows.rules _ _ hrule) ((minting_spec net id p i).2.2 _ (skolem_fire hp i))

/-- Heads with values are asserted. -/
theorem discardedHeads_assertHeads {b : Binding} (j : Justification) {head : List Triple}
    (h : ∀ atom ∈ head, ∃ t, atom.substitute b = .ok t) (net : Network) :
    (head.foldl (assertHead b j) net).discardedHeads = net.discardedHeads := by
  induction head generalizing net with
  | nil => rfl
  | cons atom rest ih =>
    obtain ⟨⟨t, ht⟩, hrest⟩ := List.forall_mem_cons.mp h
    refine (ih hrest _).trans ?_
    rw [assertHead, ht]
    dsimp only [assertDerived]
    split
    · split <;> rfl
    · rfl

/-- An activation that finds its values discards no head. -/
theorem Supplied.discardedHeads {a : Activation} (h : net.Supplied a) :
    (net.perform a).discardedHeads = net.discardedHeads := by
  cases a with
  | fact t => rfl
  | left id i =>
    simp only [perform, leftActivate]
    split
    · rfl
    · split <;> rfl
  | right id m =>
    simp only [perform, rightActivate]
    split <;> rfl
  | fire id i =>
    obtain ⟨p, hp, hhead⟩ := h
    rw [perform, fire_eq hp]
    exact discardedHeads_assertHeads _ hhead _

end Network

open Network

variable {builtins : Registry} {options : NetworkOptions} {net : Network} {s : Stage}

/-- **At every moment what is on the agenda finds its values.** -/
theorem Course.supplied (h : Course builtins options net s)
    (hbuilt : ∀ id rule, net.rule? id = some rule → rule.Built) :
    ∀ a ∈ net.agenda, net.Supplied a := by
  obtain ⟨_, hrunning⟩ := h.running
  have hwired := hrunning.wired.beta
  have hcovered := hrunning.account.covered
  intro a ha
  cases a with
  | fact t => trivial
  | left id i =>
    obtain ⟨hset, steps, node, he, hnode⟩ := hrunning.account.set_off hwired ha rfl
    have hi : i ∈ leftsOf id (net.setOff s.log) :=
      List.mem_filterMap.mpr ⟨_, hset, if_pos rfl⟩
    have hjoint := joint?_of_getElem? hnode
    have hbinds : ∀ v ∈ node.joinVars, i.binding.contains v = true :=
      binds_of_left hwired hcovered he hjoint hi
    refine ⟨node, hnode, hbinds, Binding.keyFor_isSome hbinds, fun predicate pattern hright => ?_⟩
    have htest := binds_of_test hwired hcovered he hjoint hright hi
    obtain ⟨subject, hsubject⟩ := Term.exists_resolve fun v hv =>
      htest v (Triple.mem_vars.mpr (.inl hv))
    obtain ⟨object, hobject⟩ := Term.exists_resolve fun v hv =>
      htest v (Triple.mem_vars.mpr (.inr (.inr hv)))
    exact ⟨htest, subject, object, hsubject, hobject⟩
  | right id m =>
    obtain ⟨hset, steps, node, he, hnode⟩ := hrunning.account.set_off hwired ha rfl
    have hm : m ∈ rightsOf id (net.setOff s.log) :=
      List.mem_filterMap.mpr ⟨_, hset, if_pos rfl⟩
    have hbinds : ∀ v ∈ node.joinVars, m.binding.contains v = true :=
      binds_of_right hwired he (joint?_of_getElem? hnode) hm
    exact ⟨node, hnode, hbinds, Binding.keyFor_isSome hbinds⟩
  | fire id i =>
    obtain ⟨rule, hrule, hsupport, hmatch⟩ := h.fire_sound (List.mem_append_right _ ha)
    obtain ⟨p, hp, rfl⟩ := Option.map_eq_some_iff.mp hrule
    obtain ⟨-, steps, hplan, -⟩ := hrunning.wired.production.planned id p.rule hrule
    have hkeys := hrunning.grounded.keys_minting hp hsupport hmatch
    exact ⟨p, hp, fun atom hatom =>
      (hbuilt id p.rule hrule).exists_substitute hplan hmatch hkeys hatom⟩

theorem Course.step (h : Course builtins options net s) :
    ∃ log, Course builtins options net.step { s with log := log } := by
  unfold Network.step
  split
  · exact ⟨s.log, h⟩
  · exact ⟨_, h.perform ‹_›⟩

/-- The next activation discards no head. -/
theorem Course.discardedHeads_step (h : Course builtins options net s)
    (hbuilt : ∀ id rule, net.rule? id = some rule → rule.Built) :
    net.step.discardedHeads = net.discardedHeads := by
  unfold Network.step
  split
  · rfl
  · rename_i a rest hagenda
    have hsupplied := h.supplied hbuilt a (hagenda ▸ List.mem_cons_self ..)
    have hpopped : ({ net with agenda := rest } : Network).Supplied a := by
      cases a <;> exact hsupplied
    exact hpopped.discardedHeads

/-- With rules as they are built, no head was discarded. -/
theorem discardedHeads_invariant (builtins : Registry) (options : NetworkOptions) :
    Invariant builtins options fun net =>
      (∀ id rule, net.rule? id = some rule → rule.Built) → net.discardedHeads = 0 where
  new _ _ := rfl
  compile hc hcontents hq hbuilt :=
    (congrArg Network.discardedHeads hcontents :).trans
      (hq fun id rule hrule => hbuilt id rule (hc.grown.rules id rule hrule))
  perform {net _ a rest} h hagenda hq hbuilt := by
    have hskeleton : ({ net with agenda := rest }.perform a).skeleton = net.skeleton :=
      (skeleton_perform _ a).trans (skeleton_agenda net rest)
    have hbefore : ∀ id rule, net.rule? id = some rule → rule.Built := fun id rule hrule =>
      hbuilt id rule ((rule?_of_skeleton_eq hskeleton id).trans hrule)
    have hstep := h.discardedHeads_step hbefore
    rw [Network.step, hagenda] at hstep
    exact hstep.trans (hq hbefore)
  push _ hq := hq
  clear hq := hq
  insert _ hq := hq
  forget _ _ := rfl
  setCancellation _ hq := hq

/-- **No variable lacks a value when it is looked up.** With rules as they are built, whatever is
on the agenda at any moment finds its node or production and the values that are looked up there;
performing it discards no head, and after every history none was discarded. -/
theorem History.none_unbound (builtins : Registry) (options : NetworkOptions) :
    (∀ net s, Course builtins options net s →
      (∀ id rule, net.rule? id = some rule → rule.Built) →
        (∀ a ∈ net.agenda, net.Supplied a) ∧ net.step.discardedHeads = net.discardedHeads) ∧
    ∀ net ledger, History builtins options net ledger → (∀ rule ∈ ledger.rules, rule.Built) →
      net.stats.discardedHeads = 0 :=
  ⟨fun _ _ h hbuilt => ⟨h.supplied hbuilt, h.discardedHeads_step hbuilt⟩,
    fun _ _ h hbuilt => (discardedHeads_invariant builtins options).of_history h
      (h.built_of_rule? hbuilt)⟩

/-- Whatever `p` leads to in two steps is related by `q` to something, unless they lead back. -/
def departure : HornRule :=
  .ofAtoms "departure"
    [⟨.var ⟨"x"⟩, .iri "p", .var ⟨"y"⟩⟩, ⟨.var ⟨"y"⟩, .iri "p", .var ⟨"z"⟩⟩,
      ⟨.var ⟨"x"⟩, .iri "differs", .var ⟨"z"⟩⟩]
    [⟨.var ⟨"z"⟩, .iri "q", .var ⟨"w"⟩⟩]

/-- A third fact of the chain. -/
def further : Triple := ⟨.iri "c", .iri "p", .iri "d"⟩

/-- The match of a pattern of the rule with a fact. -/
def stepMatch (atom fact : Triple) : Match := ⟨fact, (Binding.ofMatch atom fact).getD ∅⟩

/-- What the join makes of the last two facts. -/
def bothSteps : Instantiation :=
  ((Instantiation.ofMatch (stepMatch departure.body[0] chain[1])).join
    (stepMatch departure.body[1] further)).getD {}

/-- The network when the third fact came and `n` activations were performed. -/
def Network.reached (net : Network) : Nat → Network
  | 0 => { net with
      workingMemory := net.workingMemory.insert further
      agenda := .fact further :: net.agenda }
  | n + 1 => (net.reached n).step

theorem Course.reached {fed : List Triple} {log : List Activation} {replayed : Bool}
    (h : Course builtins options net { fed, log, replayed })
    (hnew : further ∉ net.workingMemory.toList) (n : Nat) :
    ∃ s, Course builtins options (net.reached n) s := by
  induction n with
  | zero => exact ⟨_, (h.move (.insert hnew)).move (.fact (s := { fed := _, log, replayed }))⟩
  | succ n ih =>
    obtain ⟨_, h⟩ := ih
    obtain ⟨_, hnext⟩ := h.step
    exact ⟨_, hnext⟩

/-- After a conclusion from the first two facts the third comes to the join from both sides, and
then its match with the second to the test. -/
theorem History.none_unbound_of_departure : ∃ net ledger s s',
    History inequality {} net ledger ∧ net.stats.firings = 1 ∧ net.stats.discardedHeads = 0 ∧
    Course inequality {} (net.reached 2) s ∧
    (net.reached 2).agenda = [.left ⟨1⟩ (.ofMatch (stepMatch departure.body[0] further)),
      .right ⟨1⟩ (stepMatch departure.body[1] further)] ∧
    ((net.reached 2).betas[1]?).any (·.joinVars = [⟨"y"⟩]) ∧
    (∀ a ∈ (net.reached 2).agenda, (net.reached 2).Supplied a) ∧
    Course inequality {} (net.reached 4) s' ∧ (net.reached 4).agenda = [.left ⟨2⟩ bothSteps] ∧
    ((net.reached 4).betas[2]?).any (·.right = .builtin "differs" departure.body[2]) ∧
    (net.reached 4).Supplied (.left ⟨2⟩ bothSteps) := by
  have hrun : (((Network.new inequality).addRule 0 departure).bind fun e =>
      e.1.feed 30 chain).any fun e => e.1.stats.firings = 1 ∧
        further ∉ e.1.workingMemory.toList ∧
        (∀ p ∈ (e.1.reached 2).productions, p.rule = departure) ∧
        (∀ p ∈ (e.1.reached 4).productions, p.rule = departure) ∧
        (e.1.reached 2).agenda = [.left ⟨1⟩ (.ofMatch (stepMatch departure.body[0] further)),
          .right ⟨1⟩ (stepMatch departure.body[1] further)] ∧
        ((e.1.reached 2).betas[1]?).any (·.joinVars = [⟨"y"⟩]) ∧
        (e.1.reached 4).agenda = [.left ⟨2⟩ bothSteps] ∧
        ((e.1.reached 4).betas[2]?).any (·.right = .builtin "differs" departure.body[2]) := by
    decide +kernel
  obtain ⟨⟨net, result⟩, hcalls, hfound⟩ := (Option.any_eq_true ..).mp hrun
  obtain ⟨hfirings, hnew, hrules, hrules', hjoining, hjoin, htesting, htest⟩ :=
    of_decide_eq_true hfound
  obtain ⟨⟨added, outcome⟩, hadd, hfeed⟩ := Option.bind_eq_some_iff.mp hcalls
  obtain ⟨hmoments, hhistories⟩ := none_unbound inequality {}
  have hhistory := (History.new.addRule hadd).feed hfeed
  obtain ⟨_, log, replayed, hcourse, _⟩ := hhistory.course
  obtain ⟨s, hfirst⟩ := hcourse.reached hnew 2
  obtain ⟨s', hsecond⟩ := hcourse.reached hnew 4
  have hbuilt : departure.Built := ⟨_, _, _, rfl⟩
  have hkept : ∀ rule ∈ outcome.kept departure, rule.Built := by
    intro rule hrule
    cases outcome with
    | added id | duplicate id => exact List.mem_singleton.mp hrule ▸ hbuilt
    | dropped diagnostic => exact absurd hrule List.not_mem_nil
  have hall : ∀ other : Network, (∀ p ∈ other.productions, p.rule = departure) →
      ∀ id rule, other.rule? id = some rule → rule.Built := by
    intro other hother id rule hrule
    obtain ⟨p, hp, rfl⟩ := Option.map_eq_some_iff.mp hrule
    exact hother p (List.mem_of_getElem? hp) ▸ hbuilt
  exact ⟨net, _, s, s', hhistory, hfirings, hhistories _ _ hhistory hkept, hfirst, hjoining, hjoin,
    (hmoments _ _ hfirst (hall _ hrules)).1, hsecond, htesting, htest,
    (hmoments _ _ hsecond (hall _ hrules')).1 _ (htesting ▸ List.mem_singleton_self _)⟩

end HornReasoner
