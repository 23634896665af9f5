import HornReasoner.Text.Case
import HornReasoner.Text.Category

/-! Regular expressions and what they match.

`ends` maps the positions at which a match may start to those at which it may end, so
a pattern composes by composing these maps and no order of attempts shows. -/
namespace HornReasoner.Regex

/-- A set of characters. `weight` estimates the size of an automaton for it. -/
structure CharClass where
  has : Char → Bool
  weight : Nat := 1

namespace CharClass

def none : CharClass := ⟨fun _ => false, 0⟩

def single (c : Char) : CharClass := ⟨(c = ·), c.utf8Size⟩

def range (a b : Char) : CharClass := ⟨fun c => a ≤ c && c ≤ b, if b.toNat < 128 then 1 else 4⟩

def union (s t : CharClass) : CharClass := ⟨fun c => s.has c || t.has c, s.weight + t.weight⟩

def inter (s t : CharClass) : CharClass := ⟨fun c => s.has c && t.has c, s.weight + t.weight⟩

def diff (s t : CharClass) : CharClass := ⟨fun c => s.has c && !t.has c, s.weight + t.weight⟩

def symmDiff (s t : CharClass) : CharClass := ⟨fun c => s.has c != t.has c, s.weight + t.weight⟩

def compl (s : CharClass) : CharClass := ⟨fun c => !s.has c, s.weight + 10⟩

/-- The characters that differ from a member in case alone. -/
def foldCase (s : CharClass) : CharClass := ⟨fun c => (Text.orbit c).any s.has, 2 * s.weight⟩

def ofRanges (ranges : List (Nat × Nat)) : CharClass :=
  ⟨Text.inRanges ranges, 2 * ranges.length⟩

end CharClass

/-- A condition on a position. -/
inductive Look where
  | textStart
  | textEnd
  | lineStart
  | lineEnd
  /-- Lines end at `\r\n`, at `\r` and at `\n`. -/
  | crlfStart
  | crlfEnd
  /-- What the characters before and after the position have to be; `none` leaves a
  side open. -/
  | word (isWord : Char → Bool) (before after : Option Bool)
  | boundary (isWord : Char → Bool) (holds : Bool)

inductive Pattern where
  | empty
  | char (set : CharClass)
  | look (condition : Look)
  | seq (first second : Pattern)
  | alt (left right : Pattern)
  | repeat (body : Pattern) (least : Nat) (most : Option Nat)

def Pattern.sequence (parts : List Pattern) : Pattern := parts.foldr .seq .empty

/-- An estimate of the states of an automaton for the pattern. -/
def Pattern.size : Pattern → Nat
  | empty => 1
  | char set => set.weight
  | look _ => 1
  | seq first second => first.size + second.size
  | alt left right => left.size + right.size + 2
  | .repeat body least most =>
    match most with
    | none => max least 1 * body.size + 2
    | some n => n * (body.size + 1) + 1

/-! ### Matching -/

/-- The condition holds at position `i` of the text. -/
def Look.holds (text : Array Char) (i : Nat) (look : Look) : Bool :=
  let before : Option Char := if i = 0 then none else text[i - 1]?
  let after : Option Char := text[i]?
  match look with
  | textStart => i = 0
  | textEnd => i = text.size
  | lineStart => i = 0 || before = some '\n'
  | lineEnd => i = text.size || after = some '\n'
  | crlfStart => i = 0 || before = some '\n' || (before = some '\r' && after ≠ some '\n')
  | crlfEnd =>
    i = text.size || after = some '\r' || (after = some '\n' && before ≠ some '\r')
  | word isWord left right =>
    left.all (before.any isWord == ·) && right.all (after.any isWord == ·)
  | boundary isWord holds => (before.any isWord != after.any isWord) == holds

def insertAll (new known : List Nat) : List Nat :=
  new.foldl (fun known i => if known.contains i then known else known ++ [i]) known

/-- Applies `step` until no position is new; each round but the last adds one, so a
`fuel` beyond the number of positions suffices. -/
def closure (step : List Nat → List Nat) : Nat → List Nat → List Nat
  | 0, known => known
  | fuel + 1, known =>
    let grown := insertAll (step known) known
    if grown.length = known.length then known else closure step fuel grown

/-- Applies `step` up to `n` times and collects the positions on the way. -/
def upTo (step : List Nat → List Nat) : Nat → List Nat → List Nat
  | 0, starts => starts
  | n + 1, starts => if starts.isEmpty then [] else insertAll (upTo step n (step starts)) starts

/-- Applies `step` exactly `n` times. -/
def times (step : List Nat → List Nat) : Nat → List Nat → List Nat
  | 0, starts => starts
  | n + 1, starts => if starts.isEmpty then [] else times step n (step starts)

/-- The positions at which a match may end that starts at one of `starts`. -/
def Pattern.ends (text : Array Char) : Pattern → List Nat → List Nat
  | empty, starts => starts
  | char set, starts =>
    starts.filterMap fun i => if (text[i]?).any set.has then some (i + 1) else none
  | look condition, starts => starts.filter (condition.holds text ·)
  | seq first second, starts => second.ends text (first.ends text starts)
  | alt left right, starts => insertAll (right.ends text starts) (left.ends text starts)
  | .repeat body least most, starts =>
    let here := times (body.ends text) least starts
    match most with
    | none => closure (body.ends text) (text.size + 1) here
    | some n => upTo (body.ends text) (n - least) here

/-- The pattern matches some part of the text. -/
def Pattern.matchesIn (p : Pattern) (text : String) : Bool :=
  let cs := text.toList.toArray
  !(p.ends cs (List.range (cs.size + 1))).isEmpty

end HornReasoner.Regex
