/-! The tokens of N3 documents and their places in the text. -/
namespace HornReasoner.N3

/-- A place in a text: bytes before it, and its line and column from one on, columns
counted in bytes. -/
structure Position where
  offset : Nat := 0
  line : Nat := 1
  column : Nat := 1
deriving DecidableEq, Repr, Inhabited

namespace Position

/-- The place behind a character. -/
def after (p : Position) (c : Char) : Position :=
  { offset := p.offset + c.utf8Size
    line := if c = '\n' then p.line + 1 else p.line
    column := if c = '\n' then 1 else p.column + c.utf8Size }

def advance (p : Position) (cs : List Char) : Position := cs.foldl after p

end Position

inductive Token where
  | prefixKeyword
  | baseKeyword
  | implies
  | impliedBy
  | sameAs
  | a
  | trueKeyword
  | falseKeyword
  /-- An IRI in angle brackets. -/
  | iriRef (iri : String)
  /-- `space:name`; both sides of the colon may be empty. -/
  | prefixedName (space name : String)
  | var (name : String)
  | blankLabel (label : String)
  /-- A quoted string; its body keeps the escapes. -/
  | string (body : String)
  | langTag (tag : String)
  | integer (digits : String)
  | decimal (digits : String)
  | double (digits : String)
  | doubleCaret
  | lbrace
  | rbrace
  | lbracket
  | rbracket
  | dot
  | comma
  | semicolon
deriving DecidableEq, Repr, Inhabited

namespace Token

/-- The token as it stands in the text. -/
def text : Token → String
  | prefixKeyword => "@prefix"
  | baseKeyword => "@base"
  | implies => "=>"
  | impliedBy => "<="
  | sameAs => "="
  | a => "a"
  | trueKeyword => "true"
  | falseKeyword => "false"
  | iriRef iri => "<" ++ iri ++ ">"
  | prefixedName space name => space ++ ":" ++ name
  | var name => "?" ++ name
  | blankLabel label => "_:" ++ label
  | string body => "\"" ++ body ++ "\""
  | langTag tag => "@" ++ tag
  | integer digits => digits
  | decimal digits => digits
  | double digits => digits
  | doubleCaret => "^^"
  | lbrace => "\x7b"
  | rbrace => "\x7d"
  | lbracket => "["
  | rbracket => "]"
  | dot => "."
  | comma => ","
  | semicolon => ";"

/-- The token as messages name it. -/
def describe (t : Token) : String := "'" ++ t.text ++ "'"

end Token

/-- A token, or a piece of text that is none, with the bytes it covers. -/
structure Lexeme where
  token : Except String Token
  start : Position
  stop : Nat

end HornReasoner.N3
