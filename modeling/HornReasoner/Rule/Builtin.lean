import HornReasoner.Order.SortedMap
import HornReasoner.Rdf.Numeric
import HornReasoner.Regex.Reader
import HornReasoner.Text.Lowercase

/-! Built-in predicates: tests on two terms that stand for no stored facts.

A registry maps predicate IRIs to their tests. The standard one compares numbers
(`math:`), texts (`string:`) and terms (`log:`). -/
namespace HornReasoner

/-- A test of the subject and the object of a triple. -/
abbrev Builtin := Term → Term → Bool

namespace Builtin

/-- The 64 bits of a number. -/
def number? : Term → Option Nat
  | .literal l => l.bits?
  | _ => none

/-- The lexical form of a literal or the IRI itself; other terms are no texts. -/
def text? : Term → Option String
  | .literal l => some l.lexical
  | .iri s => some s
  | _ => none

/-- Holds of two numbers in the given relation of their bits. -/
def onNumbers (holds : Nat → Nat → Bool) : Builtin := fun a b =>
  match number? a, number? b with
  | some x, some y => holds x y
  | _, _ => false

/-- Holds of two texts in the given relation. -/
def onTexts (holds : String → String → Bool) : Builtin := fun a b =>
  match text? a, text? b with
  | some x, some y => holds x y
  | _, _ => false

/-- `part` stands somewhere in `whole`. -/
def occurs (part : List Char) : List Char → Bool
  | [] => part.isEmpty
  | c :: rest => part.isPrefixOf (c :: rest) || occurs part rest

def lowercase (s : String) : String := String.ofList (Text.lowercase s.toList)

/-- Whether the pattern `b` matches the text `a`, if both are texts and `b` is a
pattern. -/
def matches? (a b : Term) : Option Bool := do
  let text ← text? a
  let pattern ← Regex.Pattern.parse? (← text? b)
  return pattern.matchesIn text

def standard : List (String × Builtin) :=
  let math (name : String) (holds : Nat → Nat → Bool) :=
    (Vocabulary.Swap.math ++ name, onNumbers holds)
  let string (name : String) (holds : String → String → Bool) :=
    (Vocabulary.Swap.string ++ name, onTexts holds)
  [math "greaterThan" fun x y => Binary64.less y x,
   math "lessThan" fun x y => Binary64.less x y,
   math "notGreaterThan" fun x y => Binary64.lessOrEqual x y,
   math "notLessThan" fun x y => Binary64.lessOrEqual y x,
   math "equalTo" fun x y => Binary64.equal x y,
   math "notEqualTo" fun x y => !Binary64.equal x y,
   string "startsWith" fun x y => y.toList.isPrefixOf x.toList,
   string "endsWith" fun x y => y.toList.isSuffixOf x.toList,
   string "contains" fun x y => occurs y.toList x.toList,
   string "containsIgnoringCase" fun x y => occurs (lowercase y).toList (lowercase x).toList,
   string "equalIgnoringCase" fun x y => lowercase x = lowercase y,
   string "notEqualIgnoringCase" fun x y => lowercase x ≠ lowercase y,
   string "greaterThan" fun x y => y < x,
   string "lessThan" fun x y => x < y,
   (Vocabulary.Swap.string ++ "matches", fun a b => (matches? a b).getD false),
   (Vocabulary.Swap.string ++ "notMatches", fun a b => (matches? a b).any not),
   (Vocabulary.Swap.log ++ "equalTo", fun a b => a = b),
   (Vocabulary.Swap.log ++ "notEqualTo", fun a b => a ≠ b)]

end Builtin

/-- Built-in predicates by IRI. -/
abbrev Registry := SortedMap String Builtin

namespace Registry

def standard : Registry := SortedMap.ofList Builtin.standard

/-- The predicate is an IRI with a test. -/
def tests (r : Registry) (predicate : Term) : Bool := predicate.iri?.any r.contains

/-- An unknown predicate never holds. -/
def evaluate (r : Registry) (iri : String) (a b : Term) : Bool :=
  (r.get? iri).any fun test => test a b

/-- The categories of characters that print nothing by themselves. -/
def unprintable : List String := ["Cc", "Cf", "Cn", "Co", "Zl", "Zp", "Zs", "Mn", "Me"]

/-- A quoted name; characters that do not print, but for the blank, stand as their
code. -/
def quote (s : String) : String :=
  let escape (c : Char) : List Char :=
    if c = '"' ∨ c = '\\' then ['\\', c]
    else if c = '\n' then ['\\', 'n']
    else if c = '\r' then ['\\', 'r']
    else if c = '\t' then ['\\', 't']
    else if c = '\x00' then ['\\', '0']
    else if c ≠ ' ' ∧ unprintable.contains (Text.category c) then
      "\\u\x7b".toList ++ Nat.toDigits 16 c.toNat ++ ['\x7d']
    else [c]
  "\"" ++ String.ofList (s.toList.flatMap escape) ++ "\""

/-- The names of the predicates in order. -/
def summary (r : Registry) : String :=
  "BuiltinRegistry \x7b builtins: [" ++ ", ".intercalate (r.keys.map quote) ++ "] \x7d"

end Registry

end HornReasoner
