import HornReasoner.N3.Escape
import HornReasoner.N3.Lexer
import HornReasoner.Rdf.Vocabulary
import HornReasoner.Rule.Ruleset

/-! N3 documents.

A document declares namespaces and a base, states facts and gives rules
`{ body } => { head }`, with the usual abbreviations: `;` repeats the subject, `,`
subject and verb, `[ ... ]` is a fresh blank node with statements about it. Reading
goes token by token and stops at the first fault. -/
namespace HornReasoner.N3

/-! ### Faults -/

inductive Expected where
  | token (token : Token)
  | term
  | iri
  | prefixName
  | dotOrBrace

def Expected.describe : Expected → String
  | token t => t.describe
  | term => "term"
  | iri => "IRI"
  | prefixName => "prefix name"
  | dotOrBrace => "'.' or '\x7d'"

inductive Cause where
  /-- Text that belongs to no token. -/
  | unrecognised (text : String)
  /-- A token out of place, or the end of the text. -/
  | unexpected (expected : Expected) (found : Option Token)
  | undeclared (space : String)
  | datatype (found : Term)
  | verb (found : Term)
  | unterminated
  | variableInFact (fact : Triple)

def Cause.message : Cause → String
  | unrecognised text => "unrecognised input '" ++ text ++ "'"
  | unexpected expected (some t) =>
    "expected " ++ expected.describe ++ ", found " ++ t.describe
  | unexpected expected none => "expected " ++ expected.describe ++ ", found end of input"
  | undeclared space => "undeclared prefix '" ++ space ++ ":'"
  | datatype found => "datatype must be an IRI, found " ++ found.render
  | verb found => "expected '=>' between formulas, found " ++ found.render
  | unterminated => "unterminated formula"
  | variableInFact fact => "variable outside a formula in " ++ fact.render

structure Fault where
  position : Position
  cause : Cause

/-- The fault as rule readers report it. -/
def Fault.toError (f : Fault) : RuleError :=
  .parse f.position.line f.position.column f.cause.message

/-! ### Reading tokens -/

/-- What is left to read and what was declared so far. `last` is the place of the token
read last, `finish` the end of the text. -/
structure State where
  rest : List (Token × Position)
  last : Position
  finish : Position
  prefixes : SortedMap String String := ∅
  base : Option String := none
  blanks : Nat := 0

abbrev Read := StateT State (Except Fault)

namespace Read

def fail (position : Position) (cause : Cause) : Read α := fun _ => .error ⟨position, cause⟩

def peek : Read (Option Token) := return (← get).rest.head?.map Prod.fst

/-- The place of the next token, or the end of the text. -/
def here : Read Position := do
  let s ← get
  return match s.rest with
    | (_, position) :: _ => position
    | [] => s.finish

def advance : Read (Option Token) := do
  let s ← get
  match s.rest with
  | (token, position) :: rest =>
    set { s with rest, last := position }
    return some token
  | [] => return none

/-- Reports a token that was read and is out of place, or the end of the text. -/
def unexpected (expected : Expected) (found : Option Token) : Read α := do
  match found with
  | some _ => fail (← get).last (.unexpected expected found)
  | none => fail (← here) (.unexpected expected none)

def expect (token : Token) : Read Unit := do
  let found ← advance
  if found ≠ some token then unexpected (.token token) found

/-- A relative IRI, one without a colon, is put behind the base. -/
def resolve (iri : String) : Read String := do
  match (← get).base with
  | some base => return if iri.toList.contains ':' then iri else base ++ iri
  | none => return iri

def expand (space name : String) : Read String := do
  let s ← get
  match s.prefixes.get? space with
  | some iri => return iri ++ name
  | none => fail s.last (.undeclared space)

/-- The bracket nodes of a document are `gen1`, `gen2` and so on. -/
def freshBlank : Read Term := do
  modify fun s => { s with blanks := s.blanks + 1 }
  return .blank ("gen" ++ toString (← get).blanks)

def iriRef : Read String := do
  match ← advance with
  | some (.iriRef iri) => resolve iri
  | found => unexpected .iri found

/-! ### Terms -/

/-- A term other than a bracket. A datatype is read as a term and has to be an IRI. Each
term takes a token, so a `fuel` beyond the number of tokens is never used up. -/
def term : Nat → Read Term
  | 0 => do fail (← here) (.unexpected .term none)
  | fuel + 1 => do
    match ← advance with
    | some (.iriRef iri) => return .iri (← resolve iri)
    | some (.prefixedName space name) => return .iri (← expand space name)
    | some (.var name) => return .var ⟨name⟩
    | some (.blankLabel label) => return .blank label
    | some (.string body) =>
      let lexical := String.ofList (unescape body.toList)
      match ← peek with
      | some (.langTag tag) =>
        let _ ← advance
        return .literal (.tagged lexical tag)
      | some .doubleCaret =>
        let _ ← advance
        match ← term fuel with
        | .iri datatype => return .literal (.typed lexical datatype)
        | other => fail (← here) (.datatype other)
      | _ => return .literal (.plain lexical)
    | some (.integer digits) => return .literal (.typed digits Vocabulary.Xsd.integer)
    | some (.decimal digits) => return .literal (.typed digits Vocabulary.Xsd.decimal)
    | some (.double digits) => return .literal (.typed digits Vocabulary.Xsd.double)
    | some .trueKeyword => return .literal (.typed "true" Vocabulary.Xsd.boolean)
    | some .falseKeyword => return .literal (.typed "false" Vocabulary.Xsd.boolean)
    | found => unexpected .term found

/-- Three tokens abbreviate verbs; any other verb is a term. -/
def verb (fuel : Nat) : Read Term := do
  match ← peek with
  | some .a =>
    let _ ← advance
    return .iri Vocabulary.Rdf.type
  | some .sameAs =>
    let _ ← advance
    return .iri Vocabulary.Owl.sameAs
  | some .implies =>
    let _ ← advance
    return .iri Vocabulary.Swap.logImplies
  | _ => term fuel

/-! ### Statements -/

/-- Skips semicolons. -/
def semicolons : Nat → Read Unit
  | 0 => return ()
  | fuel + 1 => do
    if (← peek) = some .semicolon then
      let _ ← advance
      semicolons fuel

/-- Whether the next token ends a list of verbs and objects. -/
def atEnd : Read Bool := do
  match ← peek with
  | none | some .dot | some .rbrace | some .rbracket => return true
  | _ => return false

mutual

/-- Verbs and their objects, with semicolons between them and behind the last. -/
def properties : Nat → Term → Read (List Triple)
  | 0, _ => do fail (← here) (.unexpected .term none)
  | fuel + 1, subject => do
    let verb ← verb fuel
    let stated ← objects fuel subject verb
    if (← peek) ≠ some .semicolon then return stated
    semicolons fuel
    if ← atEnd then return stated
    return stated ++ (← properties fuel subject)

/-- Objects with commas between them. What a bracket states stands before the triple
that has it as object. -/
def objects : Nat → Term → Term → Read (List Triple)
  | 0, _, _ => do fail (← here) (.unexpected .term none)
  | fuel + 1, subject, verb => do
    let (object, inner) ← object fuel
    let stated := inner ++ [⟨subject, verb, object⟩]
    if (← peek) = some .comma then
      let _ ← advance
      return stated ++ (← objects fuel subject verb)
    return stated

/-- A term, or a bracket with what it states. -/
def object : Nat → Read (Term × List Triple)
  | 0 => do fail (← here) (.unexpected .term none)
  | fuel + 1 => do
    if (← peek) = some .lbracket then bracket fuel
    else return (← term fuel, [])

/-- A fresh node and the statements about it. -/
def bracket : Nat → Read (Term × List Triple)
  | 0 => do fail (← here) (.unexpected .term none)
  | fuel + 1 => do
    expect .lbracket
    let node ← freshBlank
    if (← peek) = some .rbracket then
      let _ ← advance
      return (node, [])
    let stated ← properties fuel node
    expect .rbracket
    return (node, stated)

end

/-- A subject and what is said of it; a bracket may stand alone. -/
def triples (fuel : Nat) : Read (List Triple) := do
  if (← peek) = some .lbracket then
    let (subject, inner) ← bracket fuel
    match ← peek with
    | some .dot | some .rbrace => return inner
    | _ => return inner ++ (← properties fuel subject)
  else
    let subject ← term fuel
    properties fuel subject

/-- The triples up to the closing brace, with dots between them. -/
def formulaRest : Nat → Read (List Triple)
  | 0 => do fail (← here) .unterminated
  | fuel + 1 => do
    match ← peek with
    | some .rbrace =>
      let _ ← advance
      return []
    | some .dot =>
      let _ ← advance
      formulaRest fuel
    | some _ =>
      let stated ← triples fuel
      match ← peek with
      | some .dot | some .rbrace => return stated ++ (← formulaRest fuel)
      | found => unexpected .dotOrBrace found
    | none => fail (← here) .unterminated

def formula (fuel : Nat) : Read (List Triple) := do
  expect .lbrace
  formulaRest fuel

/-- What stands between two formulas; whether the head comes first. -/
def arrow (fuel : Nat) : Read Bool := do
  match ← peek with
  | some .implies =>
    let _ ← advance
    return false
  | some .impliedBy =>
    let _ ← advance
    return true
  | _ =>
    let found ← term fuel
    if found ≠ .iri Vocabulary.Swap.logImplies then fail (← here) (.verb found)
    return false

/-- A rule is labelled with the line and column of its first brace. -/
def ruleLabel (p : Position) : String :=
  "n3:" ++ toString p.line ++ ":" ++ toString p.column

def statement (fuel : Nat) (read : Ruleset) : Read Ruleset := do
  match ← peek with
  | some .prefixKeyword =>
    let _ ← advance
    match ← advance with
    | some (.prefixedName space "") =>
      let iri ← iriRef
      expect .dot
      modify fun s => { s with prefixes := s.prefixes.insert space iri }
      return read
    | found => unexpected .prefixName found
  | some .baseKeyword =>
    let _ ← advance
    let iri ← iriRef
    expect .dot
    modify fun s => { s with base := some iri }
    return read
  | some .lbrace =>
    let position ← here
    let first ← formula fuel
    let reversed ← arrow fuel
    let second ← formula fuel
    expect .dot
    let (body, head) := if reversed then (second, first) else (first, second)
    return { read with rules := read.rules ++ [.ofAtoms (ruleLabel position) body head] }
  | some _ =>
    let facts ← triples fuel
    expect .dot
    match facts.find? Triple.hasVariables with
    | some fact => fail (← here) (.variableInFact fact)
    | none => return { read with facts := read.facts ++ facts }
  | none => return read

/-- Statements to the end of the text. -/
def statements (inner : Nat) : Nat → Ruleset → Read Ruleset
  | 0, read => return read
  | fuel + 1, read => do
    if (← peek).isNone then return read
    statements inner fuel (← statement inner read)

/-- The whole document. No chain of calls is longer than two calls a token and two more, so
a `fuel` beyond that is never used up. -/
def document (fuel : Nat) : Read Ruleset := statements fuel fuel {}

end Read

/-- Before the first token. -/
def State.start (prefixes : SortedMap String String) (tokens : List (Token × Position))
    (finish : Position) : State :=
  let last := match tokens with
    | (_, position) :: _ => position
    | [] => finish
  { rest := tokens, last, finish, prefixes }

/-- Reads a document given as tokens with their places, ending at `finish`. -/
def parseTokens (prefixes : SortedMap String String) (tokens : List (Token × Position))
    (finish : Position) : Except Fault Ruleset :=
  match (Read.document (2 * tokens.length + 2)).run (State.start prefixes tokens finish) with
  | .ok (read, s) => .ok { read with prefixes := s.prefixes }
  | .error fault => .error fault

/-- The tokens of lexemes, if every one is a token. -/
def tokensOf : List Lexeme → Except Fault (List (Token × Position))
  | [] => .ok []
  | lexeme :: rest =>
    match lexeme.token with
    | .ok token => (tokensOf rest).map ((token, lexeme.start) :: ·)
    | .error text => .error ⟨lexeme.start, .unrecognised text⟩

/-- Reads a document with some namespaces declared beforehand. -/
def parseWith (prefixes : SortedMap String String) (text : String) : Except RuleError Ruleset :=
  let read := do
    parseTokens prefixes (← tokensOf (lex text)) (Position.advance {} text.toList)
  match read with
  | .ok found => .ok found
  | .error fault => .error fault.toError

def parse (text : String) : Except RuleError Ruleset := parseWith ∅ text

end HornReasoner.N3
