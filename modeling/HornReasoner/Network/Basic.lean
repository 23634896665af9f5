import HornReasoner.Network.Provenance
import HornReasoner.Network.Skolem
import HornReasoner.Rdf.Json
import HornReasoner.Rule.Builtin
import HornReasoner.Rule.Horn

/-! The state of a network: its compiled rules, its memories and its facts. -/
namespace HornReasoner

structure NetworkOptions where
  recordProvenance : Bool := true
  /-- Keep every justification of a triple, not only the first. -/
  recordAlternates : Bool := true
  /-- What stands before the number in the labels of minted blank nodes. -/
  blankStem : Option String := none
deriving DecidableEq, Repr

def NetworkOptions.toJson (o : NetworkOptions) : Json :=
  .object [("record_provenance", .bool o.recordProvenance),
    ("record_alternate_justifications", .bool o.recordAlternates),
    ("blank_prefix", .option .string o.blankStem)]

/-- A request to stop feeding. The flag is shared with whoever asks, who may set or clear it
at any time; a feed reads it anew before each fact. -/
structure CancellationFlag where
  isCancelled : Bool := false
deriving DecidableEq, Repr

/-- What a feed reads of the flag: the entry `k` before the fact number `k` of its batch. -/
abbrev Readings := Nat → Bool

namespace CancellationFlag

def cancel (_ : CancellationFlag) : CancellationFlag := ⟨true⟩

def reset (_ : CancellationFlag) : CancellationFlag := ⟨false⟩

/-- What is read of a flag that nobody touches meanwhile. -/
def readings (flag : CancellationFlag) : Readings := fun _ => flag.isCancelled

end CancellationFlag

/-- A rule in the network. One without a terminal node holds unconditionally. -/
structure Production where
  rule : HornRule
  terminal : Option BetaId
  fired : Nat := 0
deriving DecidableEq

def Production.isUniversalTruth (p : Production) : Bool := p.terminal.isNone

/-- Body and head as sets: rules with one signature are one rule. -/
structure RuleSignature where
  body : List Triple
  head : List Triple
deriving DecidableEq, Repr

def RuleSignature.of (r : HornRule) : RuleSignature :=
  ⟨Sorted.ofList r.body, Sorted.ofList r.head⟩

/-- Something to be done: a fact to be tested, an instantiation or a match to be
joined, a rule to fire. -/
inductive Activation where
  | fact (fact : Triple)
  | left (beta : BetaId) (i : Instantiation)
  | right (beta : BetaId) (m : Match)
  | fire (production : ProductionId) (i : Instantiation)
deriving DecidableEq

structure Network where
  options : NetworkOptions
  builtins : Registry
  alphas : List AlphaNode := []
  betas : List BetaNode := []
  productions : List Production := []
  alphaIndex : List (AlphaKey × AlphaId) := []
  /-- The alpha nodes of each constant predicate. -/
  predicateIndex : Buckets Term AlphaId := []
  /-- The alpha nodes that leave the predicate open. -/
  wildcards : List AlphaId := []
  /-- The node that covers the first steps of a plan. -/
  planIndex : List (List PlanStep × BetaId) := []
  signatureIndex : List (RuleSignature × ProductionId) := []
  /-- The productions that hold unconditionally. -/
  truths : List ProductionId := []
  /-- The facts, asserted and inferred. -/
  workingMemory : Graph := ∅
  inferred : Graph := ∅
  provenance : Provenance := []
  skolem : SkolemTable
  /-- What is left to do, the next first. -/
  agenda : List Activation := []
  cancellation : CancellationFlag := {}
  firings : Nat := 0
  /-- Head patterns left out because a variable had no value. -/
  discardedHeads : Nat := 0

/-- The size of a network and what it did. -/
structure NetworkStats where
  rules : Nat
  alphaNodes : Nat
  betaNodes : Nat
  terminalNodes : Nat
  workingMemory : Nat
  inferred : Nat
  leftMemory : Nat
  rightMemory : Nat
  firings : Nat
  discardedHeads : Nat
  mintedBlanks : Nat
deriving DecidableEq, Repr

namespace NetworkStats

def nodes (s : NetworkStats) : Nat := s.alphaNodes + s.betaNodes

def render (s : NetworkStats) : String :=
  "<Network: " ++ toString s.rules ++ " rules, " ++ toString s.nodes ++ " nodes, " ++
    toString s.workingMemory ++ " tokens in working memory, " ++ toString s.inferred ++
    " inferred tokens>"

end NetworkStats

namespace Network

/-- A network without rules and facts. Where no stem for minted labels is given, one is
`drawn`. -/
def new (builtins : Registry) (options : NetworkOptions := {}) (drawn : String := "sk") : Network :=
  { options, builtins, skolem := { stem := options.blankStem.getD drawn } }

def production? (net : Network) (id : ProductionId) : Option Production :=
  net.productions[id.index]?

def stats (net : Network) : NetworkStats :=
  { rules := net.productions.length
    alphaNodes := net.alphas.length
    betaNodes := net.betas.length
    terminalNodes := net.betas.countP BetaNode.isTerminal
    workingMemory := net.workingMemory.size
    inferred := net.inferred.size
    leftMemory := net.betas.foldl (fun n beta => n + beta.leftMemory.size) 0
    rightMemory := net.betas.foldl (fun n beta => n + beta.rightMemory.size) 0
    firings := net.firings
    discardedHeads := net.discardedHeads
    mintedBlanks := net.skolem.size }

def setCancellation (net : Network) (flag : CancellationFlag) : Network :=
  { net with cancellation := flag }

end Network

end HornReasoner
