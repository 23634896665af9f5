/-! Diagnostics: what was skipped, and why, while the rest went on. -/
namespace HornReasoner

structure Diagnostic where
  /-- The clause, rule or axiom that was skipped. -/
  source : String
  message : String
deriving DecidableEq, Repr, Inhabited

def Diagnostic.render (d : Diagnostic) : String := d.source ++ ": " ++ d.message

end HornReasoner
