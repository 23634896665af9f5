import HornReasoner.Ontology.Supplement

/-! The supplement as a document.

Its text is read without a fault, and no rule in it has existential variables. The reader is run
on the characters of the text. -/
namespace HornReasoner

/-- Reads a document given as characters. -/
def N3.parseChars (cs : List Char) : Except Fault Ruleset := do
  parseTokens ∅ (← tokensOf (lexFrom cs.length {} cs)) (Position.advance {} cs)

theorem N3.parse_eq (text : String) : parse text = match parseChars text.toList with
    | .ok found => .ok found
    | .error fault => .error fault.toError := rfl

/-- What a test finds of the rule set in the characters, it finds of that in the text. -/
theorem N3.parse_of_chars {P : Ruleset → Bool} {text : String} {cs : List Char}
    (hcs : text.toList = cs) (h : (parseChars cs).toOption.any P = true) :
    ∃ r, parse text = .ok r ∧ P r = true := by
  rw [parse_eq, hcs]
  cases hfound : parseChars cs with
  | ok r =>
    rw [hfound] at h
    exact ⟨r, rfl, h⟩
  | error fault =>
    rw [hfound] at h
    cases h

namespace Ontology

theorem supplement_of_chars {P : Ruleset → Bool} {cs : List Char}
    (hcs : supplementText.toList = cs) (h : (N3.parseChars cs).toOption.any P = true) :
    ∃ r, supplement = .ok r ∧ P r = true := N3.parse_of_chars hcs h

set_option maxRecDepth 20000 in
theorem supplement_eq_ok :
    ∃ r, supplement = .ok r ∧ ∀ rule ∈ r.rules, rule.existentials = [] := by
  obtain ⟨r, hr, hall⟩ := supplement_of_chars (P := fun r => r.rules.all (·.existentials.isEmpty))
    String.toList_ofList (by decide +kernel)
  exact ⟨r, hr, fun rule hrule => List.isEmpty_iff.mp (List.all_eq_true.mp hall rule hrule)⟩

end Ontology

end HornReasoner
