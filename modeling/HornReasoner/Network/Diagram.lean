import HornReasoner.Network.Basic

/-! Networks as directed graphs in the DOT language. -/
namespace HornReasoner.Network

/-- A label between quotes. -/
def quoteLabel (label : String) : String :=
  "\"" ++ String.ofList (Literal.escape label.toList) ++ "\""

/-- A node's label: its name, a line break, and what it does. -/
def nodeLabel (name what : String) : String :=
  "\"" ++ name ++ "\\n" ++ String.ofList (Literal.escape what.toList) ++ "\""

def alphaLines (e : AlphaNode × Nat) : List String :=
  let name := (AlphaId.mk e.2).render
  ["  " ++ name ++ " [shape=ellipse, label=" ++ nodeLabel name e.1.pattern.render ++ "];"]

/-- What a beta node does with its right input. -/
def betaKind (node : BetaNode) : String :=
  match node.right with
  | .passThrough => "pass"
  | .alpha _ => "join [" ++ ", ".intercalate (node.joinVars.map Variable.render) ++ "]"
  | .builtin _ pattern => "test " ++ pattern.render

def edge (source target side : String) : String :=
  "  " ++ source ++ " -> " ++ target ++ " [label=\"" ++ side ++ "\"];"

def betaLines (e : BetaNode × Nat) : List String :=
  let name := (BetaId.mk e.2).render
  let left := match e.1.left with
    | .alpha id => edge id.render name "left"
    | .beta id => edge id.render name "left"
  let right := match e.1.right with
    | .alpha id => [edge id.render name "right"]
    | _ => []
  ["  " ++ name ++ " [shape=box, label=" ++ nodeLabel name (betaKind e.1) ++ "];", left] ++ right

def productionLines (e : Production × Nat) : List String :=
  let name := (ProductionId.mk e.2).render
  let terminal := match e.1.terminal with
    | some beta => ["  " ++ beta.render ++ " -> " ++ name ++ ";"]
    | none => []
  ["  " ++ name ++ " [shape=doubleoctagon, label=" ++ quoteLabel e.1.rule.label ++ "];"] ++ terminal

/-- Alpha nodes, beta nodes with their inputs, and productions. -/
def diagram (net : Network) : String :=
  let lines := ["digraph rete \x7b", "  rankdir=TB;"] ++ net.alphas.zipIdx.flatMap alphaLines ++
    net.betas.zipIdx.flatMap betaLines ++ net.productions.zipIdx.flatMap productionLines ++ ["\x7d"]
  String.join (lines.map (· ++ "\n"))

end HornReasoner.Network
