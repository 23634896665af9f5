import HornReasoner.N3.Token

/-! Splitting N3 documents into tokens.

The first character tells which tokens can start; the longest one wins. Blanks and
comments stand between tokens. Text that belongs to no token is one piece as far as
it could still have become one: a run of word characters without a colon, an IRI or
a string without its end, or else a single character. -/
namespace HornReasoner.N3

def isBlank (c : Char) : Bool := c = ' ' || c = '\t' || c = '\r' || c = '\n' || c = '\x0c'

/-- The start of a local name or a label. -/
def isNameStart (c : Char) : Bool := c.isAlphanum || c = '_'

def isNamePart (c : Char) : Bool := isNameStart c || c = '-'

/-- Anything but angle brackets, blanks and control characters. -/
def isIriPart (c : Char) : Bool := c ≠ '<' && c ≠ '>' && c.toNat > 0x20

/-- What stands at the start of a text, and how many characters it has. -/
inductive Found where
  | skipped (length : Nat)
  | token (token : Token) (length : Nat)
  | unknown (length : Nat)

namespace Found

def length : Found → Nat
  | skipped n => n
  | token _ n => n
  | unknown n => n

end Found

/-- The name behind a colon, empty unless a proper start follows. -/
def localName : List Char → List Char
  | [] => []
  | c :: rest => if isNameStart c then c :: rest.takeWhile isNamePart else []

/-- A text that starts with a letter: a prefixed name or one of the three words. -/
def scanWord (s : List Char) : Found :=
  let word := s.takeWhile isNamePart
  match s.drop word.length with
  | ':' :: rest =>
    let name := localName rest
    .token (.prefixedName (String.ofList word) (String.ofList name)) (word.length + 1 + name.length)
  | _ =>
    if word = ['a'] then .token .a 1
    else if word = ['t', 'r', 'u', 'e'] then .token .trueKeyword 4
    else if word = ['f', 'a', 'l', 's', 'e'] then .token .falseKeyword 5
    else .unknown word.length

/-- The text behind an opening angle bracket. -/
def scanIri (rest : List Char) : Found :=
  let iri := rest.takeWhile isIriPart
  match rest.drop iri.length with
  | '>' :: _ => .token (.iriRef (String.ofList iri)) (iri.length + 2)
  | _ => if iri = ['='] then .token .impliedBy 2 else .unknown (iri.length + 1)

/-- The body of a string up to its closing quote, and whether there is one. A backslash
takes the next character along unless that ends the line. -/
def stringBody : List Char → List Char × Bool
  | [] => ([], false)
  | ['\\'] => ([], false)
  | '\\' :: c :: rest =>
    if c = '\n' then ([], false)
    else
      let e := stringBody rest
      ('\\' :: c :: e.1, e.2)
  | c :: rest =>
    if c = '"' then ([], true)
    else if c = '\n' then ([], false)
    else
      let e := stringBody rest
      (c :: e.1, e.2)

/-- The text behind an opening quote. -/
def scanString (rest : List Char) : Found :=
  match stringBody rest with
  | (body, true) => .token (.string (String.ofList body)) (body.length + 2)
  | (body, false) => .unknown (body.length + 1)

/-- The subtags behind a language tag's first part. Each takes a character or more, so a
`fuel` of the text's length is never used up. -/
def subtags : Nat → List Char → List Char
  | 0, _ => []
  | fuel + 1, '-' :: rest =>
    match rest.takeWhile Char.isAlphanum with
    | [] => []
    | part => '-' :: part ++ subtags fuel (rest.drop part.length)
  | _ + 1, _ => []

/-- The text behind an at sign. -/
def scanAt (rest : List Char) : Found :=
  match rest.takeWhile Char.isAlpha with
  | [] => .unknown 1
  | first =>
    let tag := first ++ subtags rest.length (rest.drop first.length)
    let token :=
      if tag = "prefix".toList then Token.prefixKeyword
      else if tag = "base".toList then Token.baseKeyword
      else .langTag (String.ofList tag)
    .token token (tag.length + 1)

/-- The exponent of a number, empty if there is none. -/
def exponent : List Char → List Char
  | c :: rest =>
    if c = 'e' ∨ c = 'E' then
      match rest with
      | d :: behind =>
        if d = '+' ∨ d = '-' then
          match behind.takeWhile Char.isDigit with
          | [] => []
          | digits => c :: d :: digits
        else
          match rest.takeWhile Char.isDigit with
          | [] => []
          | digits => c :: digits
      | [] => []
    else []
  | [] => []

/-- The point and the digits behind it, empty if there is no digit. -/
def fraction : List Char → List Char
  | '.' :: rest =>
    match rest.takeWhile Char.isDigit with
    | [] => []
    | digits => '.' :: digits
  | _ => []

/-- A text that starts with a sign or a digit. -/
def scanNumber (sign rest : List Char) : Found :=
  match rest.takeWhile Char.isDigit with
  | [] => .unknown 1
  | whole =>
    let part := fraction (rest.drop whole.length)
    let power := exponent (rest.drop (whole.length + part.length))
    let digits := sign ++ whole ++ part ++ power
    let text := String.ofList digits
    let token :=
      if power ≠ [] then Token.double text
      else if part ≠ [] then .decimal text
      else .integer text
    .token token digits.length

/-- What a text starts with. -/
def scan : List Char → Found
  | [] => .skipped 0
  | c :: rest =>
    if isBlank c then .skipped (1 + (rest.takeWhile isBlank).length)
    else if c = '#' then .skipped (1 + (rest.takeWhile (· ≠ '\n')).length)
    else if c.isAlpha then scanWord (c :: rest)
    else if c = '<' then scanIri rest
    else if c = '"' then scanString rest
    else if c = '@' then scanAt rest
    else if c.isDigit then scanNumber [] (c :: rest)
    else if c = '+' ∨ c = '-' then scanNumber [c] rest
    else if c = ':' then
      let name := localName rest
      .token (.prefixedName "" (String.ofList name)) (1 + name.length)
    else if c = '_' then
      match rest with
      | ':' :: behind =>
        match localName behind with
        | [] => .unknown 1
        | label => .token (.blankLabel (String.ofList label)) (2 + label.length)
      | _ => .unknown 1
    else if c = '?' then
      match rest with
      | d :: behind =>
        if d.isAlpha || d = '_' then
          let name := d :: behind.takeWhile isNameStart
          .token (.var (String.ofList name)) (1 + name.length)
        else .unknown 1
      | [] => .unknown 1
    else if c = '=' then
      match rest with
      | '>' :: _ => .token .implies 2
      | _ => .token .sameAs 1
    else if c = '^' then
      match rest with
      | '^' :: _ => .token .doubleCaret 2
      | _ => .unknown 1
    else if c = '\x7b' then .token .lbrace 1
    else if c = '\x7d' then .token .rbrace 1
    else if c = '[' then .token .lbracket 1
    else if c = ']' then .token .rbracket 1
    else if c = '.' then .token .dot 1
    else if c = ',' then .token .comma 1
    else if c = ';' then .token .semicolon 1
    else .unknown 1

/-- The lexemes of a text from a position on. Each takes a character or more, so a
`fuel` of the text's length is never used up. -/
def lexFrom : Nat → Position → List Char → List Lexeme
  | 0, _, _ => []
  | _ + 1, _, [] => []
  | fuel + 1, p, s =>
    let found := scan s
    let text := s.take found.length
    let stop := p.advance text
    let others := lexFrom fuel stop (s.drop found.length)
    match found with
    | .skipped _ => others
    | .token t _ => { token := .ok t, start := p, stop := stop.offset } :: others
    | .unknown _ =>
      { token := .error (String.ofList text), start := p, stop := stop.offset } :: others

/-- The tokens of a text, and the pieces of it that are none. -/
def lex (text : String) : List Lexeme := lexFrom text.toList.length {} text.toList

end HornReasoner.N3
