import HornReasoner.Number.Binary64
import HornReasoner.Text.Digits

/-! Reading floating point numbers.

A number is an optional sign and either digits with an optional point among or beside
them and an optional exponent, or one of the words `inf`, `infinity` and `nan` in
any case. -/
namespace HornReasoner.Decimal

/-- A sign, if there is one: whether it is a minus, and the rest. -/
def takeSign : List Char → Bool × List Char
  | '-' :: rest => (true, rest)
  | '+' :: rest => (false, rest)
  | s => (false, s)

/-- The exponent behind the digits, which ends the text. -/
def exponent? : List Char → Option Int
  | [] => some 0
  | c :: rest =>
    if c = 'e' ∨ c = 'E' then
      let (negative, digits) := takeSign rest
      if digits ≠ [] ∧ digits.all Char.isDigit then
        some (if negative then -(Text.decimalNumber digits : Int) else Text.decimalNumber digits)
      else none
    else none

/-- Digits and exponent of an unsigned number. -/
def magnitude? (s : List Char) : Option (Nat × Int) :=
  let (whole, rest) := s.span Char.isDigit
  let (fraction, rest) := match rest with
    | '.' :: rest => rest.span Char.isDigit
    | rest => ([], rest)
  if whole = [] ∧ fraction = [] then none
  else (exponent? rest).map fun e => (Text.decimalNumber (whole ++ fraction), e - fraction.length)

/-- The bits of the number that the whole text writes. -/
def bits? (s : List Char) : Option Nat :=
  let (negative, rest) := takeSign s
  let sign := if negative then Binary64.twoTo 63 else 0
  let word := rest.map Char.toLower
  if word = "inf".toList ∨ word = "infinity".toList then some (sign + Binary64.infinity)
  else if word = "nan".toList then some (Binary64.infinity + Binary64.twoTo 51)
  else (magnitude? rest).map fun e => sign + Binary64.ofDecimal e.1 e.2

end HornReasoner.Decimal
