import HornReasoner.Network.Basic

/-! Propagation of facts.

All work goes through one agenda, a stack: `perform` does one activation and puts what
follows from it on top, so every consequence of a fact is found before the next fact
is looked at. Rules with existential variables may go on for ever, so a run has a
`budget` of activations for each fact; a run that uses it up has no result. -/
namespace HornReasoner.Network

/-! ### One activation -/

/-- The alpha nodes that may match a fact: those of its predicate, then those that
leave it open. -/
def candidates (net : Network) (fact : Triple) : List AlphaId :=
  net.predicateIndex.find fact.predicate ++ net.wildcards

/-- What a fact sets off along an edge. -/
def alongEdge (fact : Triple) (edge : AlphaEdge) : Option Activation :=
  (Binding.ofMatch edge.pattern fact).map fun binding =>
    match edge.side with
    | .left => .left edge.beta (.ofMatch ⟨fact, binding⟩)
    | .right => .right edge.beta ⟨fact, binding⟩

/-- The node is there and its test holds of the fact. -/
def accepts (net : Network) (fact : Triple) (id : AlphaId) : Bool :=
  (net.alphas[id.index]?).any fun node => node.key.holds fact

/-- Counts the activation of the alpha nodes that match the fact and puts what their
edges set off on the agenda, the first edge on top. -/
def activateAlphas (net : Network) (fact : Triple) : Network :=
  let matching := (net.candidates fact).filter (net.accepts fact)
  let pending := matching.flatMap fun id =>
    match net.alphas[id.index]? with
    | some node => node.successors.filterMap (alongEdge fact)
    | none => []
  let count (alphas : List AlphaNode) (id : AlphaId) : List AlphaNode :=
    alphas.modify id.index fun node => { node with activations := node.activations + 1 }
  { net with alphas := matching.foldl count net.alphas, agenda := pending ++ net.agenda }

/-- What an instantiation that leaves a node sets off: firings first, then joins. -/
def followers (node : BetaNode) (i : Instantiation) : List Activation :=
  node.productions.map (.fire · i) ++ node.successors.map (.left · i)

/-- Puts what the outputs of a node set off on the agenda, the last output on top. -/
def emit (net : Network) (node : BetaNode) (outputs : List Instantiation) : Network :=
  { net with agenda := outputs.reverse.flatMap (followers node) ++ net.agenda }

def setBeta (net : Network) (id : BetaId) (node : BetaNode) : Network :=
  { net with betas := net.betas.set id.index node }

/-- The test of a built-in on the terms that a binding gives. -/
def testBuiltin (builtins : Registry) (predicate : String) (pattern : Triple) (b : Binding) : Bool :=
  match pattern.subject.resolve b, pattern.object.resolve b with
  | some subject, some object => builtins.evaluate predicate subject object
  | _, _ => false

def leftActivate (net : Network) (id : BetaId) (i : Instantiation) : Network :=
  match net.betas[id.index]? with
  | none => net
  | some node =>
    let node := { node with activations := node.activations + 1 }
    match node.right with
    | .passThrough => (net.setBeta id node).emit node [i]
    | .alpha _ =>
      let (node, outputs) := node.insertLeft i
      (net.setBeta id node).emit node outputs
    | .builtin predicate pattern =>
      let passes := testBuiltin net.builtins predicate pattern i.binding
      (net.setBeta id node).emit node (if passes then [i] else [])

def rightActivate (net : Network) (id : BetaId) (m : Match) : Network :=
  match net.betas[id.index]? with
  | none => net
  | some node =>
    let (node, outputs) := { node with activations := node.activations + 1 }.insertRight m
    (net.setBeta id node).emit node outputs

/-- Adds a derived triple. A new one goes on the agenda; of a known one at most another
justification is kept, and none if it was asserted. -/
def assertDerived (net : Network) (j : Justification) (t : Triple) : Network :=
  if net.workingMemory.contains t then
    if net.options.recordProvenance && net.options.recordAlternates && net.inferred.contains t then
      { net with provenance := (net.provenance.record t j true).1 }
    else net
  else
    { net with
      workingMemory := net.workingMemory.insert t
      inferred := net.inferred.insert t
      provenance :=
        if net.options.recordProvenance then
          (net.provenance.record t j net.options.recordAlternates).1
        else net.provenance
      agenda := .fact t :: net.agenda }

/-- Asserts the instance of a head pattern, or counts it as discarded. -/
def assertHead (b : Binding) (j : Justification) (net : Network) (pattern : Triple) : Network :=
  match pattern.substitute b with
  | .ok t => net.assertDerived j t
  | .error _ => { net with discardedHeads := net.discardedHeads + 1 }

/-- Fires a rule: existential variables get their blank nodes, and the head is
asserted pattern by pattern. -/
def fire (net : Network) (id : ProductionId) (i : Instantiation) : Network :=
  match net.production? id with
  | none => net
  | some p =>
    let counted := { p with fired := p.fired + 1 }
    let net := { net with
      productions := net.productions.set id.index counted
      firings := net.firings + 1 }
    let (skolem, fresh) :=
      if p.rule.existentials.isEmpty then (net.skolem, [])
      else net.skolem.resolve id i.support p.rule.existentials
        (net.workingMemory.toList.flatMap Triple.terms)
    let binding := i.binding.insertAllIfNew fresh
    p.rule.head.foldl (assertHead binding ⟨id, p.rule.label, i.support⟩) { net with skolem }

def perform (net : Network) : Activation → Network
  | .fact fact => net.activateAlphas fact
  | .left beta i => net.leftActivate beta i
  | .right beta m => net.rightActivate beta m
  | .fire production i => net.fire production i

/-! ### Runs -/

/-- Performs activations until the agenda is empty, at most `budget` of them. -/
def drain : Nat → Network → Option Network
  | 0, net => if net.agenda.isEmpty then some net else none
  | budget + 1, net =>
    match net.agenda with
    | [] => some net
    | next :: rest => drain budget ({ net with agenda := rest }.perform next)

/-- Performs an activation and all that follows. -/
def run (budget : Nat) (net : Network) (first : Activation) : Option Network :=
  drain budget { net with agenda := first :: net.agenda }

/-- Fires rules that hold unconditionally. -/
def assertTruths (budget : Nat) (net : Network) (ids : List ProductionId) : Option Network :=
  ids.foldlM (fun net id => net.run budget (.fire id {})) net

/-- Forgets the contents of the memories and runs all facts through the network, as
after rules were added. -/
def replay (budget : Nat) (net : Network) : Option Network :=
  let cleared : Network := { net with betas := net.betas.map BetaNode.clear }
  net.workingMemory.toList.foldlM (fun net fact => net.run budget (.fact fact)) cleared

/-- Forgets all facts and keeps the rules; those that hold unconditionally are
asserted again. -/
def reset (budget : Nat) (net : Network) : Option Network :=
  let cleared : Network := { net with
    alphas := net.alphas.map fun node => { node with activations := 0 }
    betas := net.betas.map BetaNode.clear
    productions := net.productions.map fun p => { p with fired := 0 }
    workingMemory := ∅
    inferred := ∅
    provenance := []
    skolem := net.skolem.clear
    agenda := []
    firings := 0
    discardedHeads := 0 }
  cleared.assertTruths budget net.truths

/-! ### Feeding -/

inductive FeedError where
  | nonGroundFact (fact : Triple)
  | cancelled (processed total : Nat)
deriving DecidableEq, Repr

def FeedError.message : FeedError → String
  | nonGroundFact fact => "Fact contains variables: " ++ fact.render
  | cancelled processed total =>
    "Feed cancelled after " ++ toString processed ++ " of " ++ toString total ++ " facts"

/-- What became of a batch of facts. -/
structure FeedReport where
  /-- Facts that were new. -/
  asserted : Nat := 0
  /-- Facts that were known. -/
  skipped : Nat := 0
  /-- Triples inferred on the way. -/
  inferred : Nat := 0
deriving DecidableEq, Repr

/-- Feeds the facts of a batch of `total`, the first of which are done with, until a reading
asks to stop. -/
def feedFrom (budget total : Nat) (stop : Readings) (net : Network) (report : FeedReport) :
    List Triple → Option (Network × Except FeedError FeedReport)
  | [] => some (net, .ok report)
  | fact :: rest =>
    let processed := report.asserted + report.skipped
    if stop processed then some (net, .error (.cancelled processed total))
    else if net.workingMemory.contains fact then
      feedFrom budget total stop net { report with skipped := report.skipped + 1 } rest
    else
      match { net with workingMemory := net.workingMemory.insert fact }.run budget (.fact fact) with
      | none => none
      | some net => feedFrom budget total stop net { report with asserted := report.asserted + 1 } rest

/-- Feeds facts in order, each to its last consequence before the next. A batch with a
variable in it is refused as a whole. A feed that is asked to stop keeps what it did. -/
def feed (budget : Nat) (net : Network) (facts : List Triple)
    (stop : Readings := net.cancellation.readings) :
    Option (Network × Except FeedError FeedReport) :=
  match facts.find? Triple.hasVariables with
  | some bad => some (net, .error (.nonGroundFact bad))
  | none =>
    (feedFrom budget facts.length stop net {} facts).map fun e =>
      (e.1, e.2.map fun report => { report with inferred := e.1.inferred.size - net.inferred.size })

end HornReasoner.Network
