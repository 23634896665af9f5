import HornReasoner.Proofs.Network.Wiring

/-! The account of a run.

A run is read through its log, the activations performed since the memories were last
cleared. The log fixes what the memories hold, what every beta node has let through and
so what has been set off: `setOff`. The account balances if what was performed and what
is on the agenda is what the run was started with and what was set off, neither more nor
less, in any order. Every activation keeps the balance (`Account.perform`), whatever
order the agenda imposes. -/
namespace HornReasoner

/-! ### Logs -/

namespace Activation

def fact? : Activation → Option Triple
  | fact t => some t
  | _ => none

def left? (id : BetaId) : Activation → Option Instantiation
  | left beta i => if beta = id then some i else none
  | _ => none

def right? (id : BetaId) : Activation → Option Match
  | right beta m => if beta = id then some m else none
  | _ => none

def fire? (id : ProductionId) : Activation → Option Instantiation
  | fire production i => if production = id then some i else none
  | _ => none

end Activation

/-- The facts tested. -/
def factsOf (log : List Activation) : List Triple := log.filterMap Activation.fact?

/-- The instantiations that came to the left of a node. -/
def leftsOf (id : BetaId) (log : List Activation) : List Instantiation :=
  log.filterMap (Activation.left? id)

/-- The matches that came to the right of a node. -/
def rightsOf (id : BetaId) (log : List Activation) : List Match :=
  log.filterMap (Activation.right? id)

/-- The instantiations on which a production fired. -/
def firesOf (id : ProductionId) (log : List Activation) : List Instantiation :=
  log.filterMap (Activation.fire? id)

section
variable (log more : List Activation) (a : Activation)

@[simp] theorem factsOf_append : factsOf (log ++ more) = factsOf log ++ factsOf more :=
  List.filterMap_append

@[simp] theorem leftsOf_append (id : BetaId) :
    leftsOf id (log ++ more) = leftsOf id log ++ leftsOf id more := List.filterMap_append

@[simp] theorem rightsOf_append (id : BetaId) :
    rightsOf id (log ++ more) = rightsOf id log ++ rightsOf id more := List.filterMap_append

@[simp] theorem firesOf_append (id : ProductionId) :
    firesOf id (log ++ more) = firesOf id log ++ firesOf id more := List.filterMap_append

@[simp] theorem factsOf_singleton : factsOf [a] = a.fact?.toList := by
  cases a <;> rfl

@[simp] theorem leftsOf_singleton (id : BetaId) : leftsOf id [a] = (a.left? id).toList := by
  rw [leftsOf, List.filterMap_cons]
  cases a.left? id <;> rfl

@[simp] theorem rightsOf_singleton (id : BetaId) : rightsOf id [a] = (a.right? id).toList := by
  rw [rightsOf, List.filterMap_cons]
  cases a.right? id <;> rfl

@[simp] theorem firesOf_nil (id : ProductionId) : firesOf id [] = [] := rfl

@[simp] theorem firesOf_cons (id : ProductionId) :
    firesOf id (a :: log) = (a.fire? id).toList ++ firesOf id log := by
  rw [firesOf, List.filterMap_cons]
  cases a.fire? id <;> rfl

theorem mem_firesOf {id : ProductionId} {i : Instantiation} :
    i ∈ firesOf id log ↔ .fire id i ∈ log := by
  refine List.mem_filterMap.trans ⟨?_, fun h => ⟨_, h, if_pos rfl⟩⟩
  rintro ⟨a, ha, hfire⟩
  cases a with
  | fire other j =>
    rw [Activation.fire?] at hfire
    split at hfire
    · rename_i hid
      cases hfire
      exact hid ▸ ha
    · cases hfire
  | fact t | left beta j | right beta m => cases hfire

end

namespace BetaNode

/-- The left instantiations that a node stores: only a join stores them. -/
def keeps (node : BetaNode) (lefts : List Instantiation) : List Instantiation :=
  match node.right with
  | .alpha _ => lefts
  | _ => []

/-- What has left a node to which these instantiations and matches came. -/
def emitted (r : Registry) (node : BetaNode) (lefts : List Instantiation) (rights : List Match) :
    List Instantiation :=
  match node.right with
  | .passThrough => lefts
  | .alpha _ => lefts.flatMap fun i => rights.filterMap i.join
  | .builtin predicate pattern =>
    lefts.filter fun i => Network.testBuiltin r predicate pattern i.binding

/-- What a left instantiation adds to that. -/
def fromLeft (r : Registry) (node : BetaNode) (rights : List Match) (i : Instantiation) :
    List Instantiation :=
  match node.right with
  | .passThrough => [i]
  | .alpha _ => rights.filterMap i.join
  | .builtin predicate pattern =>
    if Network.testBuiltin r predicate pattern i.binding then [i] else []

/-- What a right match adds to that. -/
def fromRight (node : BetaNode) (lefts : List Instantiation) (m : Match) : List Instantiation :=
  (node.keeps lefts).filterMap fun i => i.join m

theorem emitted_left (r : Registry) (node : BetaNode) (lefts : List Instantiation)
    (rights : List Match) (i : Instantiation) :
    node.emitted r (lefts ++ [i]) rights =
      node.emitted r lefts rights ++ node.fromLeft r rights i := by
  unfold emitted fromLeft
  split
  · rfl
  · rw [List.flatMap_append, List.flatMap_singleton]
  · rw [List.filter_append, List.filter_singleton]
    split <;> simp_all

theorem emitted_right (r : Registry) (node : BetaNode) (lefts : List Instantiation)
    (rights : List Match) (m : Match) :
    (node.emitted r lefts (rights ++ [m])).Perm
      (node.emitted r lefts rights ++ node.fromRight lefts m) := by
  cases hright : node.right with
  | passThrough => simp [emitted, fromRight, keeps, hright]
  | alpha a =>
    simp only [emitted, fromRight, keeps, hright]
    exact flatMap_filterMap_append_singleton Instantiation.join lefts rights m
  | builtin predicate pattern => simp [emitted, fromRight, keeps, hright]

end BetaNode

namespace Network

/-- What has left a node. -/
def outputs (net : Network) (log : List Activation) (id : BetaId) : List Instantiation :=
  ((net.joint? id).map fun node =>
    node.emitted net.builtins (leftsOf id log) (rightsOf id log)).getD []

/-- What an instantiation that leaves a node sets off. -/
def follow (net : Network) (id : BetaId) (i : Instantiation) : List Activation :=
  ((net.joint? id).map fun node => followers node i).getD []

/-- What a fact sets off. -/
def alongEdges (net : Network) (fact : Triple) : List Activation :=
  net.edges.filterMap (alongEdge fact)

/-- What the activations of a log have set off. -/
def setOff (net : Network) (log : List Activation) : List Activation :=
  (factsOf log).flatMap net.alongEdges ++
    net.betaIds.flatMap fun id => (net.outputs log id).flatMap (net.follow id)

/-! ### What one more activation sets off -/

theorem setOff_fact (net : Network) (log : List Activation) (t : Triple) :
    (net.setOff (log ++ [.fact t])).Perm (net.setOff log ++ net.alongEdges t) := by
  have houtputs : ∀ id, net.outputs (log ++ [.fact t]) id = net.outputs log id := by
    intro id
    simp [outputs, Activation.left?, Activation.right?]
  simp only [setOff, houtputs, factsOf_append, factsOf_singleton, Activation.fact?,
    Option.toList_some, List.flatMap_append, List.flatMap_singleton, List.append_assoc]
  exact List.perm_append_comm.append_left _

theorem setOff_fire (net : Network) (log : List Activation) (id : ProductionId) (i : Instantiation) :
    net.setOff (log ++ [.fire id i]) = net.setOff log := by
  simp [setOff, outputs, Activation.fact?, Activation.left?, Activation.right?]

/-- Activating a node adds to what has left that node only. -/
theorem setOff_of_outputs {net : Network} {log log' : List Activation} {id : BetaId}
    {node : BetaNode} {more : List Instantiation} (hnode : net.joint? id = some node)
    (hfacts : factsOf log' = factsOf log)
    (hothers : ∀ other, other ≠ id → net.outputs log' other = net.outputs log other)
    (hself : (net.outputs log' id).Perm (net.outputs log id ++ more)) :
    (net.setOff log').Perm (net.setOff log ++ more.flatMap (followers node)) := by
  have hfollow : net.follow id = followers node := by
    funext i
    rw [follow, hnode]
    rfl
  rw [setOff, setOff, hfacts, List.append_assoc]
  refine List.Perm.append_left _ ?_
  refine flatMap_perm_append_of_unique net.nodup_betaIds (mem_betaIds hnode) ?_ ?_
  · intro other _ hne
    rw [hothers other hne]
  · rw [← hfollow, ← List.flatMap_append]
    exact hself.flatMap_right _

theorem setOff_left {net : Network} {id : BetaId} {node : BetaNode} (hnode : net.joint? id = some node)
    (log : List Activation) (i : Instantiation) :
    (net.setOff (log ++ [.left id i])).Perm (net.setOff log ++
      (node.fromLeft net.builtins (rightsOf id log) i).flatMap (followers node)) := by
  refine setOff_of_outputs hnode (by simp [Activation.fact?]) (fun other hne => ?_) ?_
  · simp [outputs, Activation.left?, Activation.right?, Ne.symm hne]
  · simp only [outputs, hnode, Option.map_some, Option.getD_some, leftsOf_append, leftsOf_singleton,
      rightsOf_append, rightsOf_singleton, Activation.left?, Activation.right?, if_true,
      Option.toList_some, Option.toList_none, List.append_nil]
    rw [BetaNode.emitted_left]

theorem setOff_right {net : Network} {id : BetaId} {node : BetaNode}
    (hnode : net.joint? id = some node) (log : List Activation) (m : Match) :
    (net.setOff (log ++ [.right id m])).Perm (net.setOff log ++
      (node.fromRight (leftsOf id log) m).flatMap (followers node)) := by
  refine setOff_of_outputs hnode (by simp [Activation.fact?]) (fun other hne => ?_) ?_
  · simp [outputs, Activation.left?, Activation.right?, Ne.symm hne]
  · simp only [outputs, hnode, Option.map_some, Option.getD_some, leftsOf_append, leftsOf_singleton,
      rightsOf_append, rightsOf_singleton, Activation.left?, Activation.right?, if_true,
      Option.toList_some, Option.toList_none, List.append_nil]
    exact BetaNode.emitted_right ..

end Network

end HornReasoner
