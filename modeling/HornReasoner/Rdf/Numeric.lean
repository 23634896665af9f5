import HornReasoner.Number.Decimal
import HornReasoner.Number.Shortest
import HornReasoner.Rdf.Vocabulary
import HornReasoner.Text.WhiteSpace

/-! Numbers as literals.

A literal is a number if its datatype is a numeric one, or if it has neither datatype
nor language, and its text reads as one. Infinities and NaN are numbers of the two
floating point datatypes only. -/
namespace HornReasoner

namespace Literal

/-- Whether the literal may be infinite, if it may be a number at all. -/
def floating? (l : Literal) : Option Bool :=
  match l.datatype, l.language with
  | some iri, _ =>
    if Vocabulary.Xsd.isNumeric iri then
      some (iri = Vocabulary.Xsd.double || iri = Vocabulary.Xsd.float)
    else none
  | none, none => some false
  | none, some _ => none

/-- The 64 bits of the literal's number. -/
def bits? (l : Literal) : Option Nat := do
  let floating ← l.floating?
  let bits ← Decimal.bits? (Text.trim l.lexical.toList)
  if floating || bits % Binary64.twoTo 63 < Binary64.infinity then some bits else none

end Literal

namespace Term

def integer (n : Int) : Term := .literal (.typed (toString n) Vocabulary.Xsd.integer)

/-- The decimal literal of the number with these bits. -/
def decimal (bits : Nat) : Term := .literal (.typed (Shortest.text bits) Vocabulary.Xsd.decimal)

end Term

end HornReasoner
