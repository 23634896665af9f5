import HornReasoner.Json.Value
import HornReasoner.Text.Digits

/-! Reading JSON texts.

The text holds one value between blanks and nothing else. A string may escape half of
a surrogate pair; it then reads as `broken`, which no field accepts but an ignored
field may hold. -/
namespace HornReasoner.Json

def isBlank (c : Char) : Bool := c = ' ' || c = '\t' || c = '\n' || c = '\r'

def skipBlanks (s : List Char) : List Char := s.dropWhile isBlank

def isHighSurrogate (n : Nat) : Bool := 0xD800 ≤ n && n < 0xDC00

def isLowSurrogate (n : Nat) : Bool := 0xDC00 ≤ n && n < 0xE000

def joinSurrogates (high low : Nat) : Char :=
  Char.ofNat (0x10000 + (high - 0xD800) * 0x400 + (low - 0xDC00))

def shortEscape? (c : Char) : Option Char :=
  if c = '"' ∨ c = '\\' ∨ c = '/' then some c
  else if c = 'b' then some '\x08'
  else if c = 'f' then some '\x0c'
  else if c = 'n' then some '\n'
  else if c = 'r' then some '\r'
  else if c = 't' then some '\t'
  else none

/-- A piece of a string: a character, or one of the halves that escapes write for a
character beyond the first plane. -/
inductive Piece where
  | char (c : Char)
  | half (n : Nat)

def Piece.ofNat (n : Nat) : Piece :=
  if isHighSurrogate n || isLowSurrogate n then half n else char (Char.ofNat n)

/-- The pieces of the string whose opening quote was read, and the text behind it. -/
def pieces? : List Char → Option (List Piece × List Char)
  | [] => none
  | '"' :: rest => some ([], rest)
  | '\\' :: 'u' :: a :: b :: c :: d :: rest =>
    match Text.hexNumber? [a, b, c, d] with
    | none => none
    | some n => (pieces? rest).map fun e => (.ofNat n :: e.1, e.2)
  | '\\' :: e :: rest =>
    match shortEscape? e with
    | none => none
    | some c => (pieces? rest).map fun e => (.char c :: e.1, e.2)
  | c :: rest =>
    if c.toNat < 32 then none else (pieces? rest).map fun e => (.char c :: e.1, e.2)

/-- The characters of the pieces, if each high half stands before a low one and no
other half is left. -/
def joinHalves? : List Piece → Option (List Char)
  | [] => some []
  | .char c :: rest => (joinHalves? rest).map (c :: ·)
  | .half high :: .half low :: rest =>
    if isHighSurrogate high && isLowSurrogate low then
      (joinHalves? rest).map (joinSurrogates high low :: ·)
    else none
  | .half _ :: _ => none

/-- At least one digit. -/
def digits? (s : List Char) : Option (List Char × List Char) :=
  match s.span Char.isDigit with
  | ([], _) => none
  | found => some found

/-- A number without leading zeros, with at least a digit behind its point and its
exponent mark. -/
def number? (s : List Char) : Option (List Char × List Char) := do
  let (sign, s) := match s with
    | '-' :: rest => (['-'], rest)
    | _ => ([], s)
  let (whole, s) ← match s with
    | '0' :: rest => some (['0'], rest)
    | _ => digits? s
  let (fraction, s) ← match s with
    | '.' :: rest => (digits? rest).map fun e => ('.' :: e.1, e.2)
    | _ => some ([], s)
  let (exponent, s) ← match s with
    | c :: rest =>
      if c = 'e' ∨ c = 'E' then
        match rest with
        | d :: behind =>
          if d = '+' ∨ d = '-' then (digits? behind).map fun e => (c :: d :: e.1, e.2)
          else (digits? rest).map fun e => (c :: e.1, e.2)
        | [] => none
      else some ([], s)
    | [] => some ([], s)
  return (sign ++ whole ++ fraction ++ exponent, s)

/-- What is left behind the letters of a word. -/
def word? : List Char → List Char → Option (List Char)
  | [], s => some s
  | _ :: _, [] => none
  | c :: word, d :: s => if c = d then word? word s else none

mutual

/-- One value without leading blanks. Every call reads a character, so `fuel` beyond
the length of the text is never used up. -/
def value? : Nat → List Char → Option (Json × List Char)
  | 0, _ => none
  | _ + 1, [] => none
  | fuel + 1, c :: rest =>
    if c = '"' then
      (pieces? rest).map fun e =>
        match joinHalves? e.1 with
        | some cs => (string (String.ofList cs), e.2)
        | none => (broken, e.2)
    else if c = '[' then
      match skipBlanks rest with
      | ']' :: rest => some (array [], rest)
      | rest => (items? fuel rest).map fun e => (array e.1, e.2)
    else if c = '\x7b' then
      match skipBlanks rest with
      | '\x7d' :: rest => some (object [], rest)
      | rest => (fields? fuel rest).map fun e => (object e.1, e.2)
    else if c = 'n' then (word? "ull".toList rest).map (null, ·)
    else if c = 't' then (word? "rue".toList rest).map (bool true, ·)
    else if c = 'f' then (word? "alse".toList rest).map (bool false, ·)
    else (number? (c :: rest)).map fun e => (number (String.ofList e.1), e.2)

/-- The items from the next one to the closing bracket. -/
def items? : Nat → List Char → Option (List Json × List Char)
  | 0, _ => none
  | fuel + 1, s => do
    let (item, s) ← value? fuel s
    match skipBlanks s with
    | ',' :: rest => (items? fuel (skipBlanks rest)).map fun e => (item :: e.1, e.2)
    | ']' :: rest => some ([item], rest)
    | _ => none

/-- The fields from the next one to the closing brace. -/
def fields? : Nat → List Char → Option (List (String × Json) × List Char)
  | 0, _ => none
  | fuel + 1, s => do
    let ('"' :: s) := s | none
    let (pieces, s) ← pieces? s
    let name ← joinHalves? pieces
    let ':' :: s := skipBlanks s | none
    let (value, s) ← value? fuel (skipBlanks s)
    let field := (String.ofList name, value)
    match skipBlanks s with
    | ',' :: rest => (fields? fuel (skipBlanks rest)).map fun e => (field :: e.1, e.2)
    | '\x7d' :: rest => some ([field], rest)
    | _ => none

end

/-- The value that the whole text writes. -/
def parse? (text : String) : Option Json :=
  let s := text.toList
  match value? (2 * s.length + 2) (skipBlanks s) with
  | some (value, rest) => if (skipBlanks rest).isEmpty then some value else none
  | none => none

end HornReasoner.Json
