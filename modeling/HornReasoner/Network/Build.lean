import HornReasoner.Network.Propagation
import HornReasoner.Rule.Diagnostic

/-! Compiling rules into a network.

The body of a rule becomes a plan: its patterns in order, each built-in right behind
the pattern that binds the last of its variables. Plans that start alike share the
beta nodes of their common start, patterns of one key share an alpha node. -/
namespace HornReasoner

/-- Why a rule is not added. -/
inductive RuleFault where
  | emptyHead
  | builtinNeverHolds (atom : Triple)
  | builtinUnbound (atom : Triple)
  | startsWithBuiltin
deriving DecidableEq, Repr

def RuleFault.message : RuleFault → String
  | emptyHead => "rule has an empty head"
  | builtinNeverHolds atom => "built-in " ++ atom.render ++ " never holds"
  | builtinUnbound atom => "built-in " ++ atom.render ++ " uses variables no body pattern binds"
  | startsWithBuiltin => "rule body starts with a built-in"

/-! ### Plans -/

/-- A plan so far, the variables its patterns bind, and the built-ins that wait for
others. -/
structure Planning where
  steps : List PlanStep := []
  bound : List Variable := []
  waiting : List Triple := []

namespace Planning

/-- All variables of the atom are bound. -/
def isReady (bound : List Variable) (atom : Triple) : Bool := atom.vars.all bound.contains

/-- A pattern goes to the end, and behind it the built-ins it was the last to bind. -/
def addPattern (p : Planning) (atom : Triple) : Planning :=
  let bound := p.bound ++ atom.vars
  let (ready, waiting) := p.waiting.partition (isReady bound)
  { steps := p.steps ++ .pattern atom :: ready.map .builtin, bound, waiting }

/-- A built-in waits until its variables are bound; one without variables is decided
here. -/
def addBuiltin (builtins : Registry) (p : Planning) (predicate : String) (atom : Triple) :
    Except RuleFault Planning :=
  if !atom.hasVariables then
    if builtins.evaluate predicate atom.subject atom.object then .ok p
    else .error (.builtinNeverHolds atom)
  else if isReady p.bound atom then .ok { p with steps := p.steps ++ [.builtin atom] }
  else .ok { p with waiting := p.waiting ++ [atom] }

/-- The IRI of the atom's predicate, if it names a built-in. -/
def builtinPredicate? (builtins : Registry) (atom : Triple) : Option String :=
  atom.predicate.iri?.filter builtins.contains

def addAtom (builtins : Registry) (p : Planning) (atom : Triple) : Except RuleFault Planning :=
  match builtinPredicate? builtins atom with
  | some predicate => p.addBuiltin builtins predicate atom
  | none => .ok (p.addPattern atom)

end Planning

/-- The steps of a body in the order of evaluation. -/
def plan (builtins : Registry) (body : List Triple) : Except RuleFault (List PlanStep) :=
  match body.foldlM (Planning.addAtom builtins) {} with
  | .error fault => .error fault
  | .ok p =>
    match p.waiting with
    | atom :: _ => .error (.builtinUnbound atom)
    | [] => .ok p.steps

namespace Network

/-! ### Nodes -/

/-- The alpha node of a pattern, a new one if no pattern of its key was met before. -/
def alphaFor (net : Network) (pattern : Triple) : Network × AlphaId :=
  let key := AlphaKey.of pattern
  match net.alphaIndex.lookup key with
  | some id => (net, id)
  | none =>
    let id : AlphaId := ⟨net.alphas.length⟩
    let net := match key.predicate? with
      | some predicate => { net with predicateIndex := net.predicateIndex.add predicate id }
      | none => { net with wildcards := net.wildcards ++ [id] }
    ({ net with
      alphas := net.alphas ++ [{ key := key, pattern := pattern }]
      alphaIndex := net.alphaIndex ++ [(key, id)] }, id)

/-- What a step of a plan needs: an alpha node for its pattern, or a test. -/
inductive Attachment where
  | alpha (id : AlphaId) (pattern : Triple)
  | builtin (pattern : Triple)

/-- Finds or makes the alpha nodes of the steps. -/
def attachments (net : Network) : List PlanStep → Network × List Attachment
  | [] => (net, [])
  | .pattern t :: rest =>
    let (net, id) := net.alphaFor t
    let (net, others) := net.attachments rest
    (net, .alpha id t :: others)
  | .builtin t :: rest =>
    let (net, others) := net.attachments rest
    (net, .builtin t :: others)

def addEdge (net : Network) (id : AlphaId) (edge : AlphaEdge) : Network :=
  { net with alphas := net.alphas.modify id.index fun node =>
      { node with successors := node.successors ++ [edge] } }

def addSuccessor (net : Network) (parent child : BetaId) : Network :=
  { net with betas := net.betas.modify parent.index fun node =>
      { node with successors := node.successors ++ [child] } }

/-- The predicate's IRI; any other term as it is written. -/
def predicateName : Term → String
  | .iri s => s
  | t => t.render

/-- Adds the beta node of one step behind `parent`, with the variables bound before
it. A plan cannot start with a test. -/
def attach (net : Network) (parent : Option BetaId) (bound : List Variable) :
    Attachment → Option (Network × BetaNode)
  | .alpha id pattern =>
    let own := Sorted.ofList pattern.vars
    let beta : BetaId := ⟨net.betas.length⟩
    match parent with
    | none =>
      some (net.addEdge id ⟨beta, .left, pattern⟩,
        { left := .alpha id, right := .passThrough, outputVars := own })
    | some parent =>
      some ((net.addEdge id ⟨beta, .right, pattern⟩).addSuccessor parent beta,
        { left := .beta parent
          right := .alpha id
          joinVars := own.filter bound.contains
          outputVars := Sorted.ofList (own ++ bound) })
  | .builtin pattern =>
    match parent with
    | none => none
    | some parent =>
      let beta : BetaId := ⟨net.betas.length⟩
      some (net.addSuccessor parent beta,
        { left := .beta parent
          right := .builtin (predicateName pattern.predicate) pattern
          outputVars := Sorted.ofList bound })

/-- Adds the beta nodes of the remaining steps of a plan, of which `done` are covered
by `current`. -/
def attachAll (done : List PlanStep) (current : Option BetaId) (bound : List Variable) :
    List (PlanStep × Attachment) → Network → Network × Option BetaId
  | [], net => (net, current)
  | (step, attachment) :: rest, net =>
    match net.attach current bound attachment with
    | none => (net, none)
    | some (net, node) =>
      let id : BetaId := ⟨net.betas.length⟩
      let net := { net with
        betas := net.betas ++ [node]
        planIndex := net.planIndex ++ [(done ++ [step], id)] }
      attachAll (done ++ [step]) (some id) node.outputVars rest net

/-- The longest start of a plan, at most `k` steps, that has a node. -/
def covered (net : Network) (steps : List PlanStep) : Nat → Nat × Option BetaId
  | 0 => (0, none)
  | k + 1 =>
    match net.planIndex.lookup (steps.take (k + 1)) with
    | some beta => (k + 1, some beta)
    | none => covered net steps k

/-- The terminal node of a plan, with the nodes it lacks added. -/
def attachPlan (net : Network) (steps : List PlanStep) : Network × Option BetaId :=
  let (start, current) := net.covered steps steps.length
  let done := steps.take start
  let remaining := steps.drop start
  let (net, attachments) := net.attachments remaining
  let bound := Sorted.ofList ((done.filterMap PlanStep.pattern?).flatMap Triple.vars)
  attachAll done current bound (remaining.zip attachments) net

/-! ### Rules -/

inductive RuleOutcome where
  | added (id : ProductionId)
  /-- A production has the same body and head. -/
  | duplicate (id : ProductionId)
  | dropped (diagnostic : Diagnostic)
deriving DecidableEq, Repr

/-- What became of a batch of rules. -/
structure BuildReport where
  added : List ProductionId := []
  duplicates : Nat := 0
  dropped : List Diagnostic := []
deriving DecidableEq, Repr

def BuildReport.record (r : BuildReport) : RuleOutcome → BuildReport
  | .added id => { r with added := r.added ++ [id] }
  | .duplicate _ => { r with duplicates := r.duplicates + 1 }
  | .dropped diagnostic => { r with dropped := r.dropped ++ [diagnostic] }

/-- One report for two batches of rules. -/
def BuildReport.append (r other : BuildReport) : BuildReport :=
  { added := r.added ++ other.added
    duplicates := r.duplicates + other.duplicates
    dropped := r.dropped ++ other.dropped }

/-- Adds a production behind its terminal node, or among the truths. -/
def addProduction (net : Network) (rule : HornRule) (terminal : Option BetaId) :
    Network × ProductionId :=
  let id : ProductionId := ⟨net.productions.length⟩
  let net := match terminal with
    | some beta =>
      { net with betas := net.betas.modify beta.index fun node =>
          { node with productions := node.productions ++ [id] } }
    | none => { net with truths := net.truths ++ [id] }
  ({ net with
    productions := net.productions ++ [{ rule := rule, terminal := terminal }]
    signatureIndex := net.signatureIndex ++ [(.of rule, id)] }, id)

/-- Compiles a rule; nothing fires yet. -/
def compile (net : Network) (rule : HornRule) : Network × RuleOutcome :=
  let drop (fault : RuleFault) : RuleOutcome := .dropped ⟨rule.label, fault.message⟩
  if rule.head.isEmpty then (net, drop .emptyHead)
  else
    match plan net.builtins rule.body with
    | .error fault => (net, drop fault)
    | .ok steps =>
      match net.signatureIndex.lookup (.of rule) with
      | some id => (net, .duplicate id)
      | none =>
        if steps.isEmpty then
          let (net, id) := net.addProduction rule none
          (net, .added id)
        else
          match net.attachPlan steps with
          | (net, none) => (net, drop .startsWithBuiltin)
          | (net, some beta) =>
            let (net, id) := net.addProduction rule (some beta)
            (net, .added id)

/-- Lets new productions see the facts: the known ones are run through the network
again if a new rule has conditions, and then new truths are asserted. -/
def activate (budget : Nat) (net : Network) (added : List ProductionId) : Option Network := do
  let isTruth (id : ProductionId) : Bool := (net.production? id).any Production.isUniversalTruth
  let (truths, conditional) := added.partition isTruth
  let net ←
    if !conditional.isEmpty && !net.workingMemory.isEmpty then net.replay budget else some net
  net.assertTruths budget truths

def addRule (budget : Nat) (net : Network) (rule : HornRule) : Option (Network × RuleOutcome) :=
  match net.compile rule with
  | (net, .added id) => (net.activate budget [id]).map (·, .added id)
  | found => some found

/-- Compiles rules in turn. -/
def compileAll (net : Network) (report : BuildReport) : List HornRule → Network × BuildReport
  | [] => (net, report)
  | rule :: rest =>
    let (net, outcome) := net.compile rule
    compileAll net (report.record outcome) rest

/-- Adds a batch of rules; the facts are run through the network once at most. -/
def addRules (budget : Nat) (net : Network) (rules : List HornRule) :
    Option (Network × BuildReport) :=
  let (net, report) := net.compileAll {} rules
  (net.activate budget report.added).map (·, report)

end Network

end HornReasoner
