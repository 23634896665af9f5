import HornReasoner.Engine.Basic

/-! An engine behind handles.

All handles reach the same engine, one call at a time, and any of them may ask a feed
to stop, before it or meanwhile; the request stands until an operation that clears it. -/
namespace HornReasoner
open Network (BuildReport FeedReport)

structure SharedReasoner where
  engine : Engine

namespace SharedReasoner

def new (options : EngineOptions := {}) (drawn : String := "sk") : SharedReasoner :=
  ⟨.new options drawn⟩

def setCancellation (r : SharedReasoner) (flag : CancellationFlag) : SharedReasoner :=
  ⟨{ r.engine with network := r.engine.network.setCancellation flag }⟩

/-- Asks the running feed to stop after its current fact. -/
def cancel (r : SharedReasoner) : SharedReasoner :=
  r.setCancellation r.engine.network.cancellation.cancel

/-- Clears a request to stop. -/
def resume (r : SharedReasoner) : SharedReasoner :=
  r.setCancellation r.engine.network.cancellation.reset

/-- Does to the engine what `act` does. -/
def lift (r : SharedReasoner) (act : Engine → Option (Engine × α)) :
    Option (SharedReasoner × α) :=
  (act r.engine).map fun (engine, a) => (⟨engine⟩, a)

def loadDocument (budget : Nat) (r : SharedReasoner) (text : String)
    (stop : Readings := r.engine.network.cancellation.readings) :
    Option (SharedReasoner × Except EngineError BuildReport) :=
  r.lift (·.loadDocument budget text stop)

def loadOntology (budget : Nat) (r : SharedReasoner) (g : Graph) :
    Option (SharedReasoner × Except EngineError BuildReport) :=
  r.lift (·.loadOntology budget g)

/-- Feeds a batch, whatever was asked before it. -/
def feed (budget : Nat) (r : SharedReasoner) (facts : List Triple)
    (stop : Readings := fun _ => false) :
    Option (SharedReasoner × Except EngineError FeedReport) :=
  r.resume.lift (·.feed budget facts stop)

/-- Feeds what a collaborator delivers. One that fails changes nothing. -/
def feedFrom (budget : Nat) (r : SharedReasoner) (delivered : Except String (List Triple))
    (stop : Readings := fun _ => false) :
    Option (SharedReasoner × Except EngineError FeedReport) :=
  match delivered with
  | .ok facts => r.feed budget facts stop
  | .error message => some (r, .error (.collaborator message))

/-- Computes a closure, whatever was asked before it. -/
def computeClosure (budget : Nat) (r : SharedReasoner) (g : Graph)
    (stop : Readings := fun _ => false) :
    Option (SharedReasoner × Except EngineError ClosureReport) :=
  r.resume.lift (·.computeClosure budget g stop)

def contains (r : SharedReasoner) (t : Triple) : Bool := r.engine.closure.contains t

/-- The facts, sorted. -/
def closure (r : SharedReasoner) : List Triple := r.engine.closure.sorted

def stats (r : SharedReasoner) : NetworkStats := r.engine.stats

def reset (budget : Nat) (r : SharedReasoner) : Option SharedReasoner :=
  (r.engine.reset budget).map SharedReasoner.mk

end SharedReasoner

end HornReasoner
