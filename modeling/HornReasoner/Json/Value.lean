/-! JSON values and their texts.

An object keeps its fields in order, repeated names included, since a reader has to
refuse some repetitions and a writer has to keep the order. `compact` writes on one
line without blanks; `pretty` writes a field or item a line, two blanks a level. -/
namespace HornReasoner

inductive Json where
  | null
  | bool (value : Bool)
  /-- The digits as they stand in the text. -/
  | number (digits : String)
  | string (value : String)
  /-- A string that escapes half of a surrogate pair: well formed, yet no text. -/
  | broken
  | array (items : List Json)
  | object (fields : List (String × Json))
deriving Inhabited

namespace Json

def hexDigit (n : Nat) : Char := "0123456789abcdef".toList[n]?.getD '0'

/-- Five control characters have short escapes, the others below the blank stand as
`\u00xx`, quotes and backslashes follow a backslash. -/
def escapeChar (c : Char) : List Char :=
  if c = '"' then ['\\', '"']
  else if c = '\\' then ['\\', '\\']
  else if c = '\n' then ['\\', 'n']
  else if c = '\r' then ['\\', 'r']
  else if c = '\t' then ['\\', 't']
  else if c = '\x08' then ['\\', 'b']
  else if c = '\x0c' then ['\\', 'f']
  else if c.toNat < 32 then ['\\', 'u', '0', '0', hexDigit (c.toNat / 16), hexDigit (c.toNat % 16)]
  else [c]

def quote (s : String) : String :=
  "\"" ++ String.ofList (s.toList.flatMap escapeChar) ++ "\""

/-! ### One line -/

mutual

def compact : Json → String
  | null => "null"
  | bool true => "true"
  | bool false => "false"
  | number digits => digits
  | string s => quote s
  | broken => "\"\""
  | array items => "[" ++ compactItems items ++ "]"
  | object fields => "\x7b" ++ compactFields fields ++ "\x7d"

def compactItems : List Json → String
  | [] => ""
  | [item] => compact item
  | item :: rest => compact item ++ "," ++ compactItems rest

def compactFields : List (String × Json) → String
  | [] => ""
  | [(name, value)] => quote name ++ ":" ++ compact value
  | (name, value) :: rest => quote name ++ ":" ++ compact value ++ "," ++ compactFields rest

end

/-! ### A line per item -/

/-- The start of a line at a depth. -/
def newline (depth : Nat) : String := "\n" ++ String.ofList (List.replicate (2 * depth) ' ')

mutual

def prettyAt (depth : Nat) : Json → String
  | null => "null"
  | bool true => "true"
  | bool false => "false"
  | number digits => digits
  | string s => quote s
  | broken => "\"\""
  | array [] => "[]"
  | array items => "[" ++ prettyItems (depth + 1) items ++ newline depth ++ "]"
  | object [] => "\x7b\x7d"
  | object fields => "\x7b" ++ prettyFields (depth + 1) fields ++ newline depth ++ "\x7d"

def prettyItems (depth : Nat) : List Json → String
  | [] => ""
  | [item] => newline depth ++ prettyAt depth item
  | item :: rest => newline depth ++ prettyAt depth item ++ "," ++ prettyItems depth rest

def prettyFields (depth : Nat) : List (String × Json) → String
  | [] => ""
  | [(name, value)] => newline depth ++ quote name ++ ": " ++ prettyAt depth value
  | (name, value) :: rest =>
    newline depth ++ quote name ++ ": " ++ prettyAt depth value ++ "," ++ prettyFields depth rest

end

def pretty (j : Json) : String := prettyAt 0 j

/-! ### Building -/

def option (write : α → Json) : Option α → Json
  | none => null
  | some a => write a

def list (write : α → Json) (as : List α) : Json := array (as.map write)

end Json

end HornReasoner
