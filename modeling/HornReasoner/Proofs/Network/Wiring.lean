import HornReasoner.Proofs.Network.Instances
import HornReasoner.Proofs.Network.Key
import HornReasoner.Proofs.Order.Permutation
import Mathlib.Tactic.MkIffOfInductiveProp

/-! How the nodes of a network are connected.

`skeleton` is what is left of a network without facts and counts. No activation changes
it, so what compiling rules establishes about the connections (`Wired`) holds in every
state of a run. -/
namespace HornReasoner

namespace Network

/-- The network without facts and counts: its rules and the connections of its nodes. -/
def skeleton (net : Network) : Network :=
  { net with
    alphas := net.alphas.map fun node => { node with activations := 0 }
    betas := net.betas.map BetaNode.clear
    productions := net.productions.map fun p => { p with fired := 0 }
    workingMemory := ∅
    inferred := ∅
    provenance := []
    skolem := net.skolem.clear
    agenda := []
    cancellation := {}
    firings := 0
    discardedHeads := 0 }

/-! ### Activations keep the skeleton -/

theorem skeleton_agenda (net : Network) (agenda : List Activation) :
    { net with agenda := agenda }.skeleton = net.skeleton := rfl

theorem map_set_of_eq {α β : Type} {f : α → β} {l : List α} {k : Nat} {a b : α} (hk : l[k]? = some a)
    (h : f b = f a) : (l.set k b).map f = l.map f := by
  rw [List.map_set, h]
  refine List.ext_getElem? fun n => ?_
  rw [List.getElem?_set]
  split
  · rename_i hkn
    subst hkn
    rw [List.length_map, List.getElem?_map, hk]
    simp [(List.getElem?_eq_some_iff.mp hk).1]
  · rfl

theorem map_modify {α β : Type} {f : α → β} {g : α → α} {h : β → β} (hcomm : ∀ a, f (g a) = h (f a))
    (l : List α) (k : Nat) : (l.modify k g).map f = (l.map f).modify k h := by
  refine List.ext_getElem? fun n => ?_
  rw [List.getElem?_map, List.getElem?_modify, List.getElem?_modify, List.getElem?_map]
  cases l[n]? with
  | none => simp
  | some a =>
    by_cases hkn : k = n <;> simp [hkn, hcomm]

theorem map_modify_of_eq {α β : Type} {f : α → β} {g : α → α} (h : ∀ a, f (g a) = f a) (l : List α)
    (k : Nat) : (l.modify k g).map f = l.map f :=
  (map_modify (h := id) h l k).trans (List.modify_id k _)

theorem skeleton_setBeta {net : Network} {id : BetaId} {node node' : BetaNode}
    (hnode : net.betas[id.index]? = some node) (h : node'.clear = node.clear) :
    (net.setBeta id node').skeleton = net.skeleton := by
  unfold skeleton setBeta
  rw [map_set_of_eq hnode h]

theorem clear_insertLeft (node : BetaNode) (i : Instantiation) :
    (node.insertLeft i).1.clear = node.clear := by
  unfold BetaNode.insertLeft
  split <;> rfl

theorem clear_insertRight (node : BetaNode) (m : Match) :
    (node.insertRight m).1.clear = node.clear := by
  unfold BetaNode.insertRight
  split <;> rfl

theorem skeleton_activateAlphas (net : Network) (fact : Triple) :
    (net.activateAlphas fact).skeleton = net.skeleton := by
  have hcount : ∀ (ids : List AlphaId) (alphas : List AlphaNode),
      (ids.foldl (fun alphas id => alphas.modify id.index fun node =>
        { node with activations := node.activations + 1 }) alphas).map
          (fun node => { node with activations := 0 }) =
        alphas.map fun node => { node with activations := 0 } := by
    intro ids
    induction ids with
    | nil => exact fun _ => rfl
    | cons id rest ih =>
      intro alphas
      rw [List.foldl_cons, ih]
      have hmap := map_modify_of_eq (f := fun node : AlphaNode => { node with activations := 0 })
        (g := fun node => { node with activations := node.activations + 1 }) fun _ => rfl
      exact hmap alphas id.index
  simp only [activateAlphas, skeleton, hcount]

theorem skeleton_leftActivate (net : Network) (id : BetaId) (i : Instantiation) :
    (net.leftActivate id i).skeleton = net.skeleton := by
  unfold leftActivate
  split
  · rfl
  · rename_i node hnode
    dsimp only
    split
    · exact skeleton_setBeta hnode rfl
    · exact skeleton_setBeta hnode (clear_insertLeft _ i)
    · exact skeleton_setBeta hnode rfl

theorem skeleton_rightActivate (net : Network) (id : BetaId) (m : Match) :
    (net.rightActivate id m).skeleton = net.skeleton := by
  unfold rightActivate
  split
  · rfl
  · rename_i node hnode
    exact skeleton_setBeta hnode (clear_insertRight _ m)

theorem skeleton_assertDerived (net : Network) (j : Justification) (t : Triple) :
    (net.assertDerived j t).skeleton = net.skeleton := by
  unfold assertDerived
  split
  · split <;> rfl
  · rfl

theorem skeleton_assertHead (b : Binding) (j : Justification) (net : Network) (pattern : Triple) :
    (net.assertHead b j pattern).skeleton = net.skeleton := by
  unfold assertHead
  split
  · exact skeleton_assertDerived net j _
  · rfl

theorem skeleton_assertHeads (b : Binding) (j : Justification) (net : Network) (head : List Triple) :
    (head.foldl (assertHead b j) net).skeleton = net.skeleton := by
  induction head generalizing net with
  | nil => rfl
  | cons pattern rest ih => rw [List.foldl_cons, ih, skeleton_assertHead]

theorem clear_resolve (s : SkolemTable) (id : ProductionId) (support : List Triple)
    (vars : List Variable) (used : List Term) : (s.resolve id support vars used).1.clear = s.clear := by
  unfold SkolemTable.resolve
  dsimp only
  split <;> rfl

theorem skeleton_fire (net : Network) (id : ProductionId) (i : Instantiation) :
    (net.fire id i).skeleton = net.skeleton := by
  unfold fire
  split
  · rfl
  · rename_i p hp
    dsimp only
    rw [skeleton_assertHeads]
    have hproductions : (net.productions.set id.index { p with fired := p.fired + 1 }).map
        (fun p => { p with fired := 0 }) = net.productions.map fun p => { p with fired := 0 } :=
      map_set_of_eq hp rfl
    split
    · simp only [skeleton, hproductions]
    · simp only [skeleton, hproductions, clear_resolve]

/-- No activation changes a rule or a connection. -/
theorem skeleton_perform (net : Network) (a : Activation) :
    (net.perform a).skeleton = net.skeleton := by
  cases a with
  | fact t => exact skeleton_activateAlphas net t
  | left id i => exact skeleton_leftActivate net id i
  | right id m => exact skeleton_rightActivate net id m
  | fire id i => exact skeleton_fire net id i

/-! ### What the skeleton shows -/

def alphaIds (net : Network) : List AlphaId := (List.range net.alphas.length).map AlphaId.mk

def betaIds (net : Network) : List BetaId := (List.range net.betas.length).map BetaId.mk

def productionIds (net : Network) : List ProductionId :=
  (List.range net.productions.length).map ProductionId.mk

def alphaKey? (net : Network) (id : AlphaId) : Option AlphaKey :=
  (net.alphas[id.index]?).map AlphaNode.key

/-- The edges that leave an alpha node. -/
def edgesOf (net : Network) (id : AlphaId) : List AlphaEdge :=
  ((net.alphas[id.index]?).map AlphaNode.successors).getD []

/-- The edges that leave alpha nodes. -/
def edges (net : Network) : List AlphaEdge := net.alphas.flatMap AlphaNode.successors

/-- A beta node as it was before any fact. -/
def joint? (net : Network) (id : BetaId) : Option BetaNode :=
  (net.betas[id.index]?).map BetaNode.clear

def rule? (net : Network) (id : ProductionId) : Option HornRule :=
  (net.production? id).map Production.rule

def terminal? (net : Network) (id : ProductionId) : Option (Option BetaId) :=
  (net.production? id).map Production.terminal

/-- The productions that end at a node, or at none. -/
def productionsAt (net : Network) (terminal : Option BetaId) : List ProductionId :=
  net.productionIds.filter fun id => net.terminal? id = some terminal

theorem nodup_alphaIds (net : Network) : net.alphaIds.Nodup :=
  List.nodup_range.map fun a b h => by cases h; rfl

theorem nodup_betaIds (net : Network) : net.betaIds.Nodup :=
  List.nodup_range.map fun a b h => by cases h; rfl

theorem mem_betaIds {net : Network} {id : BetaId} {node : BetaNode} (h : net.joint? id = some node) :
    id ∈ net.betaIds := by
  obtain ⟨n, hn, _⟩ := Option.map_eq_some_iff.mp h
  exact List.mem_map.mpr ⟨id.index, List.mem_range.mpr (List.getElem?_eq_some_iff.mp hn).1, rfl⟩

theorem exists_joint {net : Network} {id : BetaId} (h : id ∈ net.betaIds) :
    ∃ node, net.joint? id = some node := by
  obtain ⟨n, hn, rfl⟩ := List.mem_map.mp h
  obtain ⟨node, hnode⟩ : ∃ node, net.betas[n]? = some node :=
    ⟨_, List.getElem?_eq_getElem (List.mem_range.mp hn)⟩
  exact ⟨node.clear, Option.map_eq_some_iff.mpr ⟨node, hnode, rfl⟩⟩

theorem joint?_of_getElem? {net : Network} {id : BetaId} {node : BetaNode}
    (h : net.betas[id.index]? = some node) : net.joint? id = some node.clear :=
  congrArg (Option.map BetaNode.clear) h

theorem rule?_of_production? {net : Network} {id : ProductionId} {p : Production}
    (h : net.production? id = some p) : net.rule? id = some p.rule :=
  congrArg (Option.map Production.rule) h

theorem exists_rule {net : Network} {id : ProductionId} {terminal : Option BetaId}
    (h : net.terminal? id = some terminal) : ∃ rule, net.rule? id = some rule := by
  obtain ⟨p, hp, _⟩ := Option.map_eq_some_iff.mp h
  exact ⟨p.rule, rule?_of_production? hp⟩

theorem edges_eq (net : Network) : net.edges = net.alphaIds.flatMap net.edgesOf := by
  rw [edges, ← flatMap_range_getElem? net.alphas, alphaIds, List.flatMap_map]
  rfl

theorem nodup_productionIds (net : Network) : net.productionIds.Nodup :=
  List.nodup_range.map fun a b h => by cases h; rfl

theorem mem_productionsAt {net : Network} {terminal : Option BetaId} {id : ProductionId} :
    id ∈ net.productionsAt terminal ↔ net.terminal? id = some terminal := by
  rw [productionsAt, List.mem_filter, decide_eq_true_iff, and_iff_right_iff_imp]
  intro h
  obtain ⟨p, hp, _⟩ := Option.map_eq_some_iff.mp h
  exact List.mem_map.mpr ⟨id.index, List.mem_range.mpr (List.getElem?_eq_some_iff.mp hp).1, rfl⟩

/-- The nodes that cover a plan with one step more. -/
def children (net : Network) (steps : List PlanStep) : List BetaId :=
  net.planIndex.filterMap fun e => if e.1.dropLast = steps then some e.2 else none

/-- The edge into the node that covers a plan, if its last step is a pattern. -/
def edgeInto? (e : List PlanStep × BetaId) : Option AlphaEdge :=
  (e.1.getLast?.bind PlanStep.pattern?).map fun t =>
    ⟨e.2, if e.1.length = 1 then .left else .right, t⟩

section
variable (net : Network)

@[simp] theorem builtins_skeleton : net.skeleton.builtins = net.builtins := rfl

@[simp] theorem alphaIndex_skeleton : net.skeleton.alphaIndex = net.alphaIndex := rfl

@[simp] theorem predicateIndex_skeleton : net.skeleton.predicateIndex = net.predicateIndex := rfl

@[simp] theorem wildcards_skeleton : net.skeleton.wildcards = net.wildcards := rfl

@[simp] theorem planIndex_skeleton : net.skeleton.planIndex = net.planIndex := rfl

@[simp] theorem signatureIndex_skeleton : net.skeleton.signatureIndex = net.signatureIndex := rfl

@[simp] theorem truths_skeleton : net.skeleton.truths = net.truths := rfl

@[simp] theorem children_skeleton (steps : List PlanStep) :
    net.skeleton.children steps = net.children steps := rfl

@[simp] theorem alphaIds_skeleton : net.skeleton.alphaIds = net.alphaIds := by
  simp [alphaIds, skeleton]

@[simp] theorem betaIds_skeleton : net.skeleton.betaIds = net.betaIds := by
  simp [betaIds, skeleton]

@[simp] theorem alphaKey?_skeleton (id : AlphaId) : net.skeleton.alphaKey? id = net.alphaKey? id := by
  simp only [alphaKey?, skeleton, List.getElem?_map, Option.map_map]
  rfl

@[simp] theorem edgesOf_skeleton (id : AlphaId) : net.skeleton.edgesOf id = net.edgesOf id := by
  simp only [edgesOf, skeleton, List.getElem?_map, Option.map_map]
  rfl

@[simp] theorem edges_skeleton : net.skeleton.edges = net.edges := by
  simp only [edges, skeleton, List.flatMap_map]

@[simp] theorem joint?_skeleton (id : BetaId) : net.skeleton.joint? id = net.joint? id := by
  simp only [joint?, skeleton, List.getElem?_map, Option.map_map]
  rfl

@[simp] theorem rule?_skeleton (id : ProductionId) : net.skeleton.rule? id = net.rule? id := by
  simp only [rule?, production?, skeleton, List.getElem?_map, Option.map_map]
  rfl

@[simp] theorem terminal?_skeleton (id : ProductionId) :
    net.skeleton.terminal? id = net.terminal? id := by
  simp only [terminal?, production?, skeleton, List.getElem?_map, Option.map_map]
  rfl

@[simp] theorem productionsAt_skeleton (terminal : Option BetaId) :
    net.skeleton.productionsAt terminal = net.productionsAt terminal := by
  have hids : net.skeleton.productionIds = net.productionIds := by
    simp [productionIds, skeleton]
  simp only [productionsAt, hids, terminal?_skeleton]

end

/-! ### Connections -/

/-- The inputs of the node `id` that covers a plan. -/
@[mk_iff]
inductive Inputs (net : Network) (id : BetaId) (node : BetaNode) : List PlanStep → Prop where
  | root {a : AlphaId} {t : Triple} : node.left = .alpha a → node.right = .passThrough →
      node.joinVars = [] → ⟨id, .left, t⟩ ∈ net.edgesOf a → Inputs net id node [.pattern t]
  | join {parent : BetaId} {a : AlphaId} {done : List PlanStep} {t : Triple} :
      (done, parent) ∈ net.planIndex → node.left = .beta parent → node.right = .alpha a →
      (∀ v, v ∈ node.joinVars ↔ v ∈ t.vars ∧ v ∈ net.builtins.boundVars (PlanStep.atoms done)) →
      ⟨id, .right, t⟩ ∈ net.edgesOf a → Inputs net id node (done ++ [.pattern t])
  | test {parent : BetaId} {done : List PlanStep} {t : Triple} :
      (done, parent) ∈ net.planIndex → node.left = .beta parent →
      node.right = .builtin (predicateName t.predicate) t → node.joinVars = [] →
      Inputs net id node (done ++ [.builtin t])

/-- The alpha nodes are found by their keys. -/
@[mk_iff]
structure AlphaWired (net : Network) : Prop where
  /-- An edge's pattern has the key of the node it leaves. -/
  keyed : ∀ id, ∀ edge ∈ net.edgesOf id, net.alphaKey? id = some (AlphaKey.of edge.pattern)
  indexed : ∀ key id, net.alphaIndex.lookup key = some id → net.alphaKey? id = some key
  byPredicate : ∀ t, net.predicateIndex.find t =
    net.alphaIds.filter fun id => (net.alphaKey? id).any fun key => key.predicate? = some t
  wildcards : net.wildcards =
    net.alphaIds.filter fun id => (net.alphaKey? id).any fun key => key.predicate? = none

/-- Every beta node covers one plan, and nodes are connected as their plans are. -/
@[mk_iff]
structure BetaWired (net : Network) : Prop where
  ids : net.planIndex.map Prod.snd = net.betaIds
  plans : (net.planIndex.map Prod.fst).Nodup
  evaluable : ∀ e ∈ net.planIndex, e.1 ≠ [] ∧ Evaluable net.builtins e.1
  edges : net.edges.Perm (net.planIndex.filterMap edgeInto?)
  inputs : ∀ e ∈ net.planIndex, ∃ node, net.joint? e.2 = some node ∧ net.Inputs e.2 node e.1 ∧
    node.successors = net.children e.1

/-- Every production ends at the node that covers its rule's plan. -/
@[mk_iff]
structure ProductionWired (net : Network) : Prop where
  planned : ∀ id rule, net.rule? id = some rule → rule.head ≠ [] ∧
    ∃ steps, plan net.builtins rule.body = .ok steps ∧
      ((steps = [] ∧ net.terminal? id = some none) ∨
        ∃ terminal, (steps, terminal) ∈ net.planIndex ∧ net.terminal? id = some (some terminal))
  ending : ∀ id node, net.joint? id = some node → node.productions = net.productionsAt (some id)
  truths : net.truths = net.productionsAt none
  signed : ∀ sig id, net.signatureIndex.lookup sig = some id →
    (net.rule? id).map RuleSignature.of = some sig

theorem ProductionWired.mem_truths {net : Network} (h : net.ProductionWired) {id : ProductionId} :
    id ∈ net.truths ↔ net.terminal? id = some none := by
  rw [h.truths, mem_productionsAt]

/-- A production without terminal node has an empty plan. -/
theorem ProductionWired.planned_none {net : Network} (h : net.ProductionWired) {id : ProductionId}
    (hid : net.terminal? id = some none) :
    ∃ rule, net.rule? id = some rule ∧ plan net.builtins rule.body = .ok [] := by
  obtain ⟨rule, hrule⟩ := exists_rule hid
  obtain ⟨_, steps, hplan, hcases⟩ := h.planned id rule hrule
  rcases hcases with ⟨rfl, _⟩ | ⟨terminal, _, hterminal⟩
  · exact ⟨rule, hrule, hplan⟩
  · cases hid.symm.trans hterminal

/-- A terminal node covers the plan of its production. -/
theorem ProductionWired.planned_some {net : Network} (h : net.ProductionWired) {id : ProductionId}
    {terminal : BetaId} (hid : net.terminal? id = some (some terminal)) :
    ∃ rule steps, net.rule? id = some rule ∧ plan net.builtins rule.body = .ok steps ∧
      (steps, terminal) ∈ net.planIndex := by
  obtain ⟨rule, hrule⟩ := exists_rule hid
  obtain ⟨_, steps, hplan, hcases⟩ := h.planned id rule hrule
  rcases hcases with ⟨_, hnone⟩ | ⟨other, he, hterminal⟩
  · cases hid.symm.trans hnone
  · cases hid.symm.trans hterminal
    exact ⟨rule, steps, hrule, hplan, he⟩

@[mk_iff]
structure Wired (net : Network) : Prop where
  alpha : net.AlphaWired
  beta : net.BetaWired
  production : net.ProductionWired

/-- Connections are a matter of the skeleton. -/
theorem wired_skeleton (net : Network) : net.skeleton.Wired ↔ net.Wired := by
  simp only [wired_iff, alphaWired_iff, betaWired_iff, productionWired_iff, inputs_iff,
    builtins_skeleton, alphaIndex_skeleton, predicateIndex_skeleton, wildcards_skeleton,
    planIndex_skeleton, signatureIndex_skeleton, truths_skeleton, children_skeleton,
    alphaIds_skeleton, betaIds_skeleton, alphaKey?_skeleton, edgesOf_skeleton, edges_skeleton,
    joint?_skeleton, rule?_skeleton, terminal?_skeleton, productionsAt_skeleton]

theorem Wired.of_skeleton_eq {net net' : Network} (h : net.Wired)
    (heq : net'.skeleton = net.skeleton) : net'.Wired := by
  rw [← wired_skeleton, heq, wired_skeleton]
  exact h

section
variable {net : Network}

/-! ### Plans and nodes -/

namespace BetaWired
variable {steps : List PlanStep} {id : BetaId}

theorem nodup_planIndex (h : net.BetaWired) : net.planIndex.Nodup := by
  refine List.Nodup.of_map Prod.snd ?_
  rw [h.ids]
  exact net.nodup_betaIds

/-- Every node covers a plan. -/
theorem exists_plan (h : net.BetaWired) (hid : id ∈ net.betaIds) :
    ∃ steps, (steps, id) ∈ net.planIndex := by
  rw [← h.ids] at hid
  obtain ⟨e, he, rfl⟩ := List.mem_map.mp hid
  exact ⟨e.1, he⟩

theorem mem_betaIds (h : net.BetaWired) (he : (steps, id) ∈ net.planIndex) : id ∈ net.betaIds := by
  rw [← h.ids]
  exact List.mem_map_of_mem he

theorem plan_unique (h : net.BetaWired) {others : List PlanStep} (he : (steps, id) ∈ net.planIndex)
    (ho : (others, id) ∈ net.planIndex) : steps = others := by
  have hnodup : (net.planIndex.map Prod.snd).Nodup := h.ids ▸ net.nodup_betaIds
  exact congrArg Prod.fst (List.inj_on_of_nodup_map hnodup he ho rfl)

theorem node_unique (h : net.BetaWired) {other : BetaId} (he : (steps, id) ∈ net.planIndex)
    (ho : (steps, other) ∈ net.planIndex) : id = other :=
  congrArg Prod.snd (List.inj_on_of_nodup_map h.plans he ho rfl)

/-- What holds of the first nodes, and passes from a node to its children, holds of every
node. -/
theorem induction (h : net.BetaWired)
    {motive : ∀ (steps : List PlanStep) (id : BetaId), (steps, id) ∈ net.planIndex → Prop}
    (root : ∀ t id he, motive [.pattern t] id he)
    (child : ∀ done step id parent he hp, motive done parent hp → motive (done ++ [step]) id he)
    {steps : List PlanStep} {id : BetaId} (he : (steps, id) ∈ net.planIndex) :
    motive steps id he := by
  induction steps using List.reverseRecOn generalizing id with
  | nil => exact absurd rfl (h.evaluable _ he).1
  | append_singleton done step ih =>
    obtain ⟨node, _, hinputs, _⟩ := h.inputs _ he
    dsimp only at hinputs
    obtain ⟨steps, hsteps⟩ : ∃ steps, done ++ [step] = steps := ⟨_, rfl⟩
    rw [hsteps] at hinputs
    cases hinputs with
    | @root a t =>
      obtain ⟨rfl, hstep⟩ := List.append_inj' (hsteps.trans (List.nil_append _).symm) rfl
      cases hstep
      exact root t id he
    | join hparent | test hparent =>
      obtain ⟨rfl, hstep⟩ := List.append_inj' hsteps rfl
      exact child done step id _ he hparent (ih hparent)

/-! The inputs of a node, by the last step of its plan. -/

theorem node_root (h : net.BetaWired) {t : Triple} (he : ([.pattern t], id) ∈ net.planIndex) :
    ∃ node a, net.joint? id = some node ∧ node.left = .alpha a ∧ node.right = .passThrough ∧
      node.joinVars = [] ∧ ⟨id, .left, t⟩ ∈ net.edgesOf a := by
  obtain ⟨node, hnode, hinputs, _⟩ := h.inputs _ he
  obtain ⟨steps, hsteps⟩ : ∃ steps, [PlanStep.pattern t] = steps := ⟨_, rfl⟩
  dsimp only at hinputs
  rw [hsteps] at hinputs
  cases hinputs with
  | root hleft hright hvars hedge =>
    cases hsteps
    exact ⟨node, _, hnode, hleft, hright, hvars, hedge⟩
  | join hparent | test hparent =>
    have hnil := List.append_eq_singleton_iff.mp hsteps.symm
    simp only [List.cons_ne_self, and_false, or_false] at hnil
    exact absurd hnil.1 (h.evaluable _ hparent).1

theorem node_join (h : net.BetaWired) {done : List PlanStep} {t : Triple}
    (he : (done ++ [.pattern t], id) ∈ net.planIndex) (hdone : done ≠ []) :
    ∃ node parent a, net.joint? id = some node ∧ (done, parent) ∈ net.planIndex ∧
      node.left = .beta parent ∧ node.right = .alpha a ∧
      (∀ v, v ∈ node.joinVars ↔
        v ∈ t.vars ∧ v ∈ net.builtins.boundVars (PlanStep.atoms done)) ∧
      ⟨id, .right, t⟩ ∈ net.edgesOf a := by
  obtain ⟨node, hnode, hinputs, _⟩ := h.inputs _ he
  obtain ⟨steps, hsteps⟩ : ∃ steps, done ++ [PlanStep.pattern t] = steps := ⟨_, rfl⟩
  dsimp only at hinputs
  rw [hsteps] at hinputs
  cases hinputs with
  | root => exact absurd (List.append_eq_singleton_iff.mp hsteps) (by simp [hdone])
  | join hparent hleft hright hvars hedge =>
    obtain ⟨rfl, hstep⟩ := List.append_inj' hsteps rfl
    cases hstep
    exact ⟨node, _, _, hnode, hparent, hleft, hright, hvars, hedge⟩
  | test =>
    obtain ⟨_, hstep⟩ := List.append_inj' hsteps rfl
    cases hstep

theorem node_test (h : net.BetaWired) {done : List PlanStep} {t : Triple}
    (he : (done ++ [.builtin t], id) ∈ net.planIndex) :
    ∃ node parent, net.joint? id = some node ∧ (done, parent) ∈ net.planIndex ∧
      node.left = .beta parent ∧ node.right = .builtin (predicateName t.predicate) t ∧
      node.joinVars = [] := by
  obtain ⟨node, hnode, hinputs, _⟩ := h.inputs _ he
  obtain ⟨steps, hsteps⟩ : ∃ steps, done ++ [PlanStep.builtin t] = steps := ⟨_, rfl⟩
  dsimp only at hinputs
  rw [hsteps] at hinputs
  cases hinputs with
  | root => exact absurd (List.append_eq_singleton_iff.mp hsteps) (by simp)
  | join =>
    obtain ⟨_, hstep⟩ := List.append_inj' hsteps rfl
    cases hstep
  | test hparent hleft hright hvars =>
    obtain ⟨rfl, hstep⟩ := List.append_inj' hsteps rfl
    cases hstep
    exact ⟨node, _, hnode, hparent, hleft, hright, hvars⟩

/-- A node with an alpha node on the right joins its parent's plan with one pattern. -/
theorem node_of_alpha (h : net.BetaWired) {node : BetaNode} {a : AlphaId}
    (he : (steps, id) ∈ net.planIndex) (hnode : net.joint? id = some node)
    (hright : node.right = .alpha a) :
    ∃ done parent t, steps = done ++ [.pattern t] ∧ (done, parent) ∈ net.planIndex ∧
      node.left = .beta parent ∧ ⟨id, .right, t⟩ ∈ net.edgesOf a := by
  obtain ⟨other, hother, hinputs, _⟩ := h.inputs _ he
  cases hother.symm.trans hnode
  cases hinputs with
  | root _ hright' => cases hright.symm.trans hright'
  | join hparent hleft hright' _ hedge =>
    cases hright.symm.trans hright'
    exact ⟨_, _, _, rfl, hparent, hleft, hedge⟩
  | test _ _ hright' => cases hright.symm.trans hright'

/-- A node with a built-in on the right tests what its parent covers. -/
theorem node_of_builtin (h : net.BetaWired) {node : BetaNode} {predicate : String} {t : Triple}
    (he : (steps, id) ∈ net.planIndex) (hnode : net.joint? id = some node)
    (hright : node.right = .builtin predicate t) :
    ∃ done parent, steps = done ++ [.builtin t] ∧ (done, parent) ∈ net.planIndex ∧
      node.left = .beta parent := by
  obtain ⟨other, hother, hinputs, _⟩ := h.inputs _ he
  cases hother.symm.trans hnode
  cases hinputs with
  | root _ hright' => cases hright.symm.trans hright'
  | join _ _ hright' => cases hright.symm.trans hright'
  | test hparent hleft hright' =>
    cases hright.symm.trans hright'
    exact ⟨_, _, rfl, hparent, hleft⟩

end BetaWired

end

end Network

end HornReasoner
