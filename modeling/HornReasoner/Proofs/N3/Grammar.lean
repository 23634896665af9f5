import HornReasoner.N3.Document

/-! The grammar of N3 documents.

Each kind of phrase is a tree. A tree has its tokens, in document order, and says its triples: in a
scope, which declares namespaces and a base, and with a number of bracket nodes before it, since
these are numbered through the document. Nothing here reads anything. -/
namespace HornReasoner.N3

/-! ### Scopes -/

/-- A name with a namespace. -/
def Token.isName : Token → Bool
  | prefixedName _ _ => true
  | _ => false

/-- The declarations in force. -/
structure Scope where
  prefixes : SortedMap String String
  base : Option String

namespace Scope

/-- An IRI without a colon is put behind the base. -/
def resolve (scope : Scope) (iri : String) : String :=
  match scope.base with
  | some base => if iri.toList.contains ':' then iri else base ++ iri
  | none => iri

/-- Every namespace that the tokens use is declared. -/
def Declares (scope : Scope) (tokens : List Token) : Prop :=
  ∀ space name, Token.prefixedName space name ∈ tokens → scope.prefixes.contains space = true

variable {scope : Scope} {ts us : List Token} {t : Token}

@[simp] theorem declares_nil : scope.Declares [] := fun _ _ h => nomatch h

@[simp] theorem declares_append :
    scope.Declares (ts ++ us) ↔ scope.Declares ts ∧ scope.Declares us := by
  simp only [Declares, List.mem_append]
  exact ⟨fun h => ⟨fun space name hm => h space name (.inl hm),
    fun space name hm => h space name (.inr hm)⟩,
    fun h space name hm => hm.elim (h.1 space name) (h.2 space name)⟩

theorem declares_cons : scope.Declares (t :: ts) ↔ scope.Declares [t] ∧ scope.Declares ts := by
  rw [← List.singleton_append, declares_append]

/-- Tokens other than names need no declaration. -/
theorem declares_of_no_name (h : ∀ t ∈ ts, t.isName = false) : scope.Declares ts :=
  fun space name hm => Bool.noConfusion (h (.prefixedName space name) hm)

theorem declares_token (h : t.isName = false) : scope.Declares [t] :=
  declares_of_no_name (List.forall_mem_singleton.mpr h)

end Scope

/-! ### Terms and verbs -/

/-- An IRI in full or with a namespace. -/
inductive Reference where
  | full (iri : String)
  | short (space name : String)

/-- A term as it is written. -/
inductive Written where
  | reference (r : Reference)
  | var (name : String)
  | blank (label : String)
  | plain (body : String)
  | tagged (body tag : String)
  | typed (body : String) (datatype : Reference)
  | integer (digits : String)
  | decimal (digits : String)
  | double (digits : String)
  | trueKeyword
  | falseKeyword

inductive Verb where
  | a
  | sameAs
  | implies
  | term (term : Written)

def Reference.token : Reference → Token
  | full iri => .iriRef iri
  | short space name => .prefixedName space name

def Reference.iri (scope : Scope) : Reference → String
  | full iri => scope.resolve iri
  | short space name => (scope.prefixes.get? space).getD "" ++ name

def Written.tokens : Written → List Token
  | reference r => [r.token]
  | var name => [.var name]
  | blank label => [.blankLabel label]
  | plain body => [.string body]
  | tagged body tag => [.string body, .langTag tag]
  | typed body datatype => [.string body, .doubleCaret, datatype.token]
  | integer digits => [.integer digits]
  | decimal digits => [.decimal digits]
  | double digits => [.double digits]
  | trueKeyword => [.trueKeyword]
  | falseKeyword => [.falseKeyword]

/-- The lexical form that the body of a string stands for. -/
def lexicalForm (body : String) : String := String.ofList (unescape body.toList)

def Written.value (scope : Scope) : Written → Term
  | reference r => .iri (r.iri scope)
  | var name => .var ⟨name⟩
  | blank label => .blank label
  | plain body => .literal (.plain (lexicalForm body))
  | tagged body tag => .literal (.tagged (lexicalForm body) tag)
  | typed body datatype => .literal (.typed (lexicalForm body) (datatype.iri scope))
  | integer digits => .literal (.typed digits Vocabulary.Xsd.integer)
  | decimal digits => .literal (.typed digits Vocabulary.Xsd.decimal)
  | double digits => .literal (.typed digits Vocabulary.Xsd.double)
  | trueKeyword => .literal (.typed "true" Vocabulary.Xsd.boolean)
  | falseKeyword => .literal (.typed "false" Vocabulary.Xsd.boolean)

def Verb.tokens : Verb → List Token
  | a => [.a]
  | sameAs => [.sameAs]
  | implies => [.implies]
  | term w => w.tokens

def Verb.value (scope : Scope) : Verb → Term
  | a => .iri Vocabulary.Rdf.type
  | sameAs => .iri Vocabulary.Owl.sameAs
  | implies => .iri Vocabulary.Swap.logImplies
  | term w => w.value scope

/-! ### Properties, objects and brackets -/

mutual

/-- Verbs with their objects; one semicolon or more between them, any number at the end. -/
inductive Properties where
  | last (verb : Verb) (objects : Objects) (semicolons : Nat)
  | more (verb : Verb) (objects : Objects) (semicolons : Nat) (rest : Properties)

/-- Objects with commas between them. -/
inductive Objects where
  | one (object : Object)
  | more (object : Object) (rest : Objects)

inductive Object where
  | term (term : Written)
  | bracket (bracket : Bracket)

inductive Bracket where
  | empty
  | stating (properties : Properties)

end

mutual

def Properties.tokens : Properties → List Token
  | .last verb objects semicolons =>
    verb.tokens ++ objects.tokens ++ List.replicate semicolons .semicolon
  | .more verb objects semicolons rest =>
    verb.tokens ++ objects.tokens ++ List.replicate (semicolons + 1) .semicolon ++ rest.tokens

def Objects.tokens : Objects → List Token
  | .one object => object.tokens
  | .more object rest => object.tokens ++ .comma :: rest.tokens

def Object.tokens : Object → List Token
  | .term w => w.tokens
  | .bracket b => b.tokens

def Bracket.tokens : Bracket → List Token
  | .empty => [.lbracket, .rbracket]
  | .stating properties => .lbracket :: properties.tokens ++ [.rbracket]

end

mutual

/-- The number of brackets, inner ones included. -/
def Properties.brackets : Properties → Nat
  | .last _ objects _ => objects.brackets
  | .more _ objects _ rest => objects.brackets + rest.brackets

def Objects.brackets : Objects → Nat
  | .one object => object.brackets
  | .more object rest => object.brackets + rest.brackets

def Object.brackets : Object → Nat
  | .term _ => 0
  | .bracket b => b.brackets

def Bracket.brackets : Bracket → Nat
  | .empty => 1
  | .stating properties => 1 + properties.brackets

end

/-- The node of a bracket with `before` brackets before it. -/
def bracketNode (before : Nat) : Term := .blank ("gen" ++ toString (before + 1))

/-- The term that an object is: a bracket is its node. -/
def Object.node (scope : Scope) (before : Nat) : Object → Term
  | .term w => w.value scope
  | .bracket _ => bracketNode before

mutual

def Properties.triples (scope : Scope) (subject : Term) (before : Nat) :
    Properties → List Triple
  | .last verb objects _ => objects.triples scope subject (verb.value scope) before
  | .more verb objects _ rest =>
    objects.triples scope subject (verb.value scope) before ++
      rest.triples scope subject (before + objects.brackets)

def Objects.triples (scope : Scope) (subject verb : Term) (before : Nat) :
    Objects → List Triple
  | .one object => object.inner scope before ++ [⟨subject, verb, object.node scope before⟩]
  | .more object rest =>
    object.inner scope before ++ [⟨subject, verb, object.node scope before⟩] ++
      rest.triples scope subject verb (before + object.brackets)

/-- The triples that are stated inside an object. -/
def Object.inner (scope : Scope) (before : Nat) : Object → List Triple
  | .term _ => []
  | .bracket b => b.triples scope before

def Bracket.triples (scope : Scope) (before : Nat) : Bracket → List Triple
  | .empty => []
  | .stating properties => properties.triples scope (bracketNode before) (before + 1)

end

/-! ### Sentences and formulas -/

/-- A subject and what is said of it; a bracket may stand alone. -/
inductive Sentence where
  | said (subject : Written) (properties : Properties)
  | bracket (bracket : Bracket)
  | bracketSaid (bracket : Bracket) (properties : Properties)

namespace Sentence

def tokens : Sentence → List Token
  | said subject properties => subject.tokens ++ properties.tokens
  | bracket b => b.tokens
  | bracketSaid b properties => b.tokens ++ properties.tokens

def brackets : Sentence → Nat
  | said _ properties => properties.brackets
  | bracket b => b.brackets
  | bracketSaid b properties => b.brackets + properties.brackets

def triples (scope : Scope) (before : Nat) : Sentence → List Triple
  | said subject properties => properties.triples scope (subject.value scope) before
  | bracket b => b.triples scope before
  | bracketSaid b properties =>
    b.triples scope before ++
      properties.triples scope (bracketNode before) (before + b.brackets)

end Sentence

/-- What stands between braces: sentences with a dot or more between them, and dots before and
behind as one likes. -/
inductive Block where
  | done
  | dot (rest : Block)
  | last (sentence : Sentence)
  | more (sentence : Sentence) (rest : Block)

namespace Block

def tokens : Block → List Token
  | done => []
  | dot rest => .dot :: rest.tokens
  | last sentence => sentence.tokens
  | more sentence rest => sentence.tokens ++ .dot :: rest.tokens

def brackets : Block → Nat
  | done => 0
  | dot rest => rest.brackets
  | last sentence => sentence.brackets
  | more sentence rest => sentence.brackets + rest.brackets

def triples (scope : Scope) (before : Nat) : Block → List Triple
  | done => []
  | dot rest => rest.triples scope before
  | last sentence => sentence.triples scope before
  | more sentence rest =>
    sentence.triples scope before ++ rest.triples scope (before + sentence.brackets)

/-- The block in its braces. -/
def formula (b : Block) : List Token := .lbrace :: b.tokens ++ [.rbrace]

end Block

inductive Arrow where
  | implies
  | impliedBy
  | term (term : Written)

namespace Arrow

def tokens : Arrow → List Token
  | implies => [.implies]
  | impliedBy => [.impliedBy]
  | term w => w.tokens

/-- The head comes first. -/
def reversed : Arrow → Bool
  | impliedBy => true
  | _ => false

/-- A term between formulas has to be `log:implies`. -/
def Implies (scope : Scope) : Arrow → Prop
  | term w => w.value scope = .iri Vocabulary.Swap.logImplies
  | _ => True

end Arrow

/-! ### Statements and documents -/

inductive Statement where
  | declare (space iri : String)
  | base (iri : String)
  | rule (first : Block) (arrow : Arrow) (second : Block)
  | facts (sentence : Sentence)

namespace Statement

def tokens : Statement → List Token
  | declare space iri => [.prefixKeyword, .prefixedName space "", .iriRef iri, .dot]
  | base iri => [.baseKeyword, .iriRef iri, .dot]
  | rule first arrow second => first.formula ++ arrow.tokens ++ second.formula ++ [.dot]
  | facts sentence => sentence.tokens ++ [.dot]

def brackets : Statement → Nat
  | rule first _ second => first.brackets + second.brackets
  | facts sentence => sentence.brackets
  | _ => 0

/-- The scope behind the statement. -/
def scope (before : Scope) : Statement → Scope
  | declare space iri =>
    { before with prefixes := before.prefixes.insert space (before.resolve iri) }
  | base iri => { before with base := some (before.resolve iri) }
  | _ => before

def isRule : Statement → Bool
  | rule .. => true
  | _ => false

/-- The rule of a formula statement that starts at `place`. -/
def rules (scope : Scope) (before : Nat) (place : Position) : Statement → List HornRule
  | rule first arrow second =>
    let left := first.triples scope before
    let right := second.triples scope (before + first.brackets)
    let (body, head) := if arrow.reversed then (right, left) else (left, right)
    [.ofAtoms (Read.ruleLabel place) body head]
  | _ => []

def triples (scope : Scope) (before : Nat) : Statement → List Triple
  | facts sentence => sentence.triples scope before
  | _ => []

/-- What the tokens alone do not tell: namespaces are declared before, a term between formulas is
`log:implies`, and no triple outside a formula holds a variable. -/
def Admissible (scope : Scope) (before : Nat) : Statement → Prop
  | rule first arrow second =>
    scope.Declares (rule first arrow second).tokens ∧ arrow.Implies scope
  | facts sentence =>
    scope.Declares sentence.tokens ∧ ∀ t ∈ sentence.triples scope before, t.hasVariables = false
  | _ => True

end Statement

abbrev Document := List Statement

namespace Document

def tokens (d : Document) : List Token := d.flatMap Statement.tokens

/-- Each statement is admissible in the scope that those before it leave. -/
def Admissible (scope : Scope) (before : Nat) : Document → Prop
  | [] => True
  | s :: rest =>
    s.Admissible scope before ∧ Admissible (s.scope scope) (before + s.brackets) rest

/-- What the document says; `places` are those of its tokens. -/
def ruleset (scope : Scope) (before : Nat) (places : List Position) : Document → Ruleset
  | [] => { prefixes := scope.prefixes }
  | s :: rest =>
    let others := ruleset (s.scope scope) (before + s.brackets) (places.drop s.tokens.length) rest
    { others with
      rules := s.rules scope before (places.headD {}) ++ others.rules
      facts := s.triples scope before ++ others.facts }

/-- Each formula statement is one rule. -/
theorem length_rules (scope : Scope) (before : Nat) (places : List Position) (d : Document) :
    (d.ruleset scope before places).rules.length = d.countP Statement.isRule := by
  induction d generalizing scope before places with
  | nil => rfl
  | cons s rest ih =>
    have hone : (s.rules scope before (places.headD {})).length = if s.isRule then 1 else 0 := by
      cases s <;> rfl
    rw [ruleset, List.length_append, ih, hone, List.countP_cons, Nat.add_comm]

end Document

end HornReasoner.N3
