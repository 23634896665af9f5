import HornReasoner.Proofs.N3.Lexing
import HornReasoner.Proofs.N3.Trees
import HornReasoner.Proofs.Rdf.Renaming
import HornReasoner.Proofs.Rule.Positions

/-! The nodes of brackets.

What a document states it states of nodes: each bracket is one, and each term that is written out.
Only when a node becomes a term can it be taken for another one. The brackets are numbered through
the document (`Document.numbers_eq`), so they stay apart from each other; but the terms they become
are blank nodes that can be written as well, and then the two are one (`parseWith_brackets`). -/
namespace HornReasoner.N3

/-! ### Nodes -/

/-- A bracket, by the number of brackets before it, or a term that is written out. -/
inductive Node where
  | bracket (number : Nat)
  | written (term : Term)
deriving DecidableEq

/-- The term that the node becomes. -/
def Node.term : Node → Term
  | bracket number => bracketNode number
  | written t => t

/-- A triple of nodes. -/
structure NodeTriple where
  subject : Node
  predicate : Node
  object : Node

namespace NodeTriple

def triple (s : NodeTriple) : Triple := ⟨s.subject.term, s.predicate.term, s.object.term⟩

def nodes (s : NodeTriple) : List Node := [s.subject, s.predicate, s.object]

end NodeTriple

/-- A rule between nodes. -/
structure NodeRule where
  label : String
  body : List NodeTriple
  head : List NodeTriple

namespace NodeRule

def rule (r : NodeRule) : HornRule :=
  .ofAtoms r.label (r.body.map NodeTriple.triple) (r.head.map NodeTriple.triple)

def nodes (r : NodeRule) : List Node := (r.body ++ r.head).flatMap NodeTriple.nodes

end NodeRule

def Object.origin (scope : Scope) (before : Nat) : Object → Node
  | .term w => .written (w.value scope)
  | .bracket _ => .bracket before

mutual

def Properties.nodeTriples (scope : Scope) (subject : Node) (before : Nat) :
    Properties → List NodeTriple
  | .last verb objects _ => objects.nodeTriples scope subject (.written (verb.value scope)) before
  | .more verb objects _ rest =>
    objects.nodeTriples scope subject (.written (verb.value scope)) before ++
      rest.nodeTriples scope subject (before + objects.brackets)

def Objects.nodeTriples (scope : Scope) (subject verb : Node) (before : Nat) :
    Objects → List NodeTriple
  | .one object => object.nodeTriples scope before ++ [⟨subject, verb, object.origin scope before⟩]
  | .more object rest =>
    object.nodeTriples scope before ++ [⟨subject, verb, object.origin scope before⟩] ++
      rest.nodeTriples scope subject verb (before + object.brackets)

def Object.nodeTriples (scope : Scope) (before : Nat) : Object → List NodeTriple
  | .term _ => []
  | .bracket b => b.nodeTriples scope before

def Bracket.nodeTriples (scope : Scope) (before : Nat) : Bracket → List NodeTriple
  | .empty => []
  | .stating properties => properties.nodeTriples scope (.bracket before) (before + 1)

end

def Sentence.nodeTriples (scope : Scope) (before : Nat) : Sentence → List NodeTriple
  | .said subject properties => properties.nodeTriples scope (.written (subject.value scope)) before
  | .bracket b => b.nodeTriples scope before
  | .bracketSaid b properties =>
    b.nodeTriples scope before ++
      properties.nodeTriples scope (.bracket before) (before + b.brackets)

def Block.nodeTriples (scope : Scope) (before : Nat) : Block → List NodeTriple
  | .done => []
  | .dot rest => rest.nodeTriples scope before
  | .last sentence => sentence.nodeTriples scope before
  | .more sentence rest =>
    sentence.nodeTriples scope before ++ rest.nodeTriples scope (before + sentence.brackets)

namespace Statement

def nodeTriples (scope : Scope) (before : Nat) : Statement → List NodeTriple
  | facts sentence => sentence.nodeTriples scope before
  | _ => []

def nodeRules (scope : Scope) (before : Nat) (place : Position) : Statement → List NodeRule
  | rule first arrow second =>
    let left := first.nodeTriples scope before
    let right := second.nodeTriples scope (before + first.brackets)
    let (body, head) := if arrow.reversed then (right, left) else (left, right)
    [⟨Read.ruleLabel place, body, head⟩]
  | _ => []

end Statement

namespace Document

/-- What the document states outside of formulas. -/
def nodeTriples (scope : Scope) (before : Nat) : Document → List NodeTriple
  | [] => []
  | s :: rest =>
    s.nodeTriples scope before ++ nodeTriples (s.scope scope) (before + s.brackets) rest

/-- The rules of the document; `places` are those of its tokens. -/
def nodeRules (scope : Scope) (before : Nat) (places : List Position) : Document → List NodeRule
  | [] => []
  | s :: rest =>
    s.nodeRules scope before (places.headD {}) ++
      nodeRules (s.scope scope) (before + s.brackets) (places.drop s.tokens.length) rest

def brackets : Document → Nat
  | [] => 0
  | s :: rest => s.brackets + brackets rest

end Document

/-! ### Numbers -/

mutual

/-- The numbers of the brackets, in order. -/
def Properties.numbers (before : Nat) : Properties → List Nat
  | .last _ objects _ => objects.numbers before
  | .more _ objects _ rest => objects.numbers before ++ rest.numbers (before + objects.brackets)

def Objects.numbers (before : Nat) : Objects → List Nat
  | .one object => object.numbers before
  | .more object rest => object.numbers before ++ rest.numbers (before + object.brackets)

def Object.numbers (before : Nat) : Object → List Nat
  | .term _ => []
  | .bracket b => b.numbers before

def Bracket.numbers (before : Nat) : Bracket → List Nat
  | .empty => [before]
  | .stating properties => before :: properties.numbers (before + 1)

end

def Sentence.numbers (before : Nat) : Sentence → List Nat
  | .said _ properties => properties.numbers before
  | .bracket b => b.numbers before
  | .bracketSaid b properties => b.numbers before ++ properties.numbers (before + b.brackets)

def Block.numbers (before : Nat) : Block → List Nat
  | .done => []
  | .dot rest => rest.numbers before
  | .last sentence => sentence.numbers before
  | .more sentence rest => sentence.numbers before ++ rest.numbers (before + sentence.brackets)

def Statement.numbers (before : Nat) : Statement → List Nat
  | .rule first _ second => first.numbers before ++ second.numbers (before + first.brackets)
  | .facts sentence => sentence.numbers before
  | _ => []

def Document.numbers (before : Nat) : Document → List Nat
  | [] => []
  | s :: rest => s.numbers before ++ numbers (before + s.brackets) rest

/-! ### Nodes and terms -/

section Terms
variable {scope : Scope}

theorem Object.node_eq (o : Object) (before : Nat) :
    o.node scope before = (o.origin scope before).term := by
  cases o <;> rfl

mutual

theorem Properties.triples_eq (p : Properties) (subject : Node) (before : Nat) :
    p.triples scope subject.term before =
      (p.nodeTriples scope subject before).map NodeTriple.triple := by
  cases p with
  | last verb objects k => exact objects.triples_eq subject (.written (verb.value scope)) before
  | more verb objects k rest =>
    rw [Properties.triples, Properties.nodeTriples, List.map_append, ← rest.triples_eq,
      ← objects.triples_eq]
    rfl

theorem Objects.triples_eq (os : Objects) (subject verb : Node) (before : Nat) :
    os.triples scope subject.term verb.term before =
      (os.nodeTriples scope subject verb before).map NodeTriple.triple := by
  cases os with
  | one object =>
    rw [Objects.triples, Objects.nodeTriples, List.map_append, ← object.inner_eq, object.node_eq]
    rfl
  | more object rest =>
    rw [Objects.triples, Objects.nodeTriples, List.map_append, List.map_append, ← object.inner_eq,
      ← rest.triples_eq, object.node_eq]
    rfl

theorem Object.inner_eq (o : Object) (before : Nat) :
    o.inner scope before = (o.nodeTriples scope before).map NodeTriple.triple := by
  cases o with
  | term w => rfl
  | bracket b => exact b.triples_eq before

theorem Bracket.triples_eq (b : Bracket) (before : Nat) :
    b.triples scope before = (b.nodeTriples scope before).map NodeTriple.triple := by
  cases b with
  | empty => rfl
  | stating properties => exact properties.triples_eq (.bracket before) (before + 1)

end

theorem Sentence.triples_eq (s : Sentence) (before : Nat) :
    s.triples scope before = (s.nodeTriples scope before).map NodeTriple.triple := by
  cases s with
  | said subject properties =>
    exact properties.triples_eq (.written (subject.value scope)) before
  | bracket b => exact b.triples_eq before
  | bracketSaid b properties =>
    rw [Sentence.triples, Sentence.nodeTriples, List.map_append, ← b.triples_eq,
      ← properties.triples_eq]
    rfl

theorem Block.triples_eq (b : Block) (before : Nat) :
    b.triples scope before = (b.nodeTriples scope before).map NodeTriple.triple := by
  induction b generalizing before with
  | done => rfl
  | dot rest ih => exact ih before
  | last sentence => exact sentence.triples_eq before
  | more sentence rest ih =>
    rw [Block.triples, Block.nodeTriples, List.map_append, ← sentence.triples_eq, ih]

theorem Statement.triples_eq (s : Statement) (before : Nat) :
    s.triples scope before = (s.nodeTriples scope before).map NodeTriple.triple := by
  cases s with
  | facts sentence => exact sentence.triples_eq before
  | declare space iri | base iri | rule first arrow second => rfl

theorem Statement.rules_eq (s : Statement) (before : Nat) (place : Position) :
    s.rules scope before place = (s.nodeRules scope before place).map NodeRule.rule := by
  cases s with
  | rule first arrow second =>
    rw [Statement.rules, Statement.nodeRules, first.triples_eq, second.triples_eq]
    cases arrow.reversed <;> rfl
  | declare space iri | base iri | facts sentence => rfl

theorem Document.ruleset_eq (d : Document) (scope : Scope) (before : Nat)
    (places : List Position) :
    (d.ruleset scope before places).facts = (d.nodeTriples scope before).map NodeTriple.triple ∧
      (d.ruleset scope before places).rules =
        (d.nodeRules scope before places).map NodeRule.rule := by
  induction d generalizing scope before places with
  | nil => exact ⟨rfl, rfl⟩
  | cons s rest ih =>
    obtain ⟨hfacts, hrules⟩ :=
      ih (s.scope scope) (before + s.brackets) (places.drop s.tokens.length)
    rw [nodeTriples, nodeRules, List.map_append, List.map_append, ← hfacts, ← hrules,
      ← s.triples_eq, ← s.rules_eq]
    exact ⟨rfl, rfl⟩

end Terms

/-! ### Each bracket has its number -/

mutual

theorem Properties.numbers_eq (p : Properties) (before : Nat) :
    p.numbers before = List.range' before p.brackets := by
  cases p with
  | last verb objects k => exact objects.numbers_eq before
  | more verb objects k rest =>
    rw [Properties.numbers, Properties.brackets, objects.numbers_eq, rest.numbers_eq,
      List.range'_append_1]

theorem Objects.numbers_eq (os : Objects) (before : Nat) :
    os.numbers before = List.range' before os.brackets := by
  cases os with
  | one object => exact object.numbers_eq before
  | more object rest =>
    rw [Objects.numbers, Objects.brackets, object.numbers_eq, rest.numbers_eq, List.range'_append_1]

theorem Object.numbers_eq (o : Object) (before : Nat) :
    o.numbers before = List.range' before o.brackets := by
  cases o with
  | term w => rfl
  | bracket b => exact b.numbers_eq before

theorem Bracket.numbers_eq (b : Bracket) (before : Nat) :
    b.numbers before = List.range' before b.brackets := by
  cases b with
  | empty => rfl
  | stating properties =>
    rw [Bracket.numbers, Bracket.brackets, properties.numbers_eq, Nat.add_comm 1, List.range'_succ]

end

theorem Sentence.numbers_eq (s : Sentence) (before : Nat) :
    s.numbers before = List.range' before s.brackets := by
  cases s with
  | said subject properties => exact properties.numbers_eq before
  | bracket b => exact b.numbers_eq before
  | bracketSaid b properties =>
    rw [Sentence.numbers, Sentence.brackets, b.numbers_eq, properties.numbers_eq,
      List.range'_append_1]

theorem Block.numbers_eq (b : Block) (before : Nat) :
    b.numbers before = List.range' before b.brackets := by
  induction b generalizing before with
  | done => rfl
  | dot rest ih => exact ih before
  | last sentence => exact sentence.numbers_eq before
  | more sentence rest ih =>
    rw [Block.numbers, Block.brackets, sentence.numbers_eq, ih, List.range'_append_1]

theorem Statement.numbers_eq (s : Statement) (before : Nat) :
    s.numbers before = List.range' before s.brackets := by
  cases s with
  | rule first arrow second =>
    rw [Statement.numbers, Statement.brackets, first.numbers_eq, second.numbers_eq,
      List.range'_append_1]
  | facts sentence => exact sentence.numbers_eq before
  | declare space iri | base iri => rfl

theorem Document.numbers_eq (d : Document) (before : Nat) :
    d.numbers before = List.range' before d.brackets := by
  induction d generalizing before with
  | nil => rfl
  | cons s rest ih => rw [numbers, brackets, s.numbers_eq, ih, List.range'_append_1]

/-! ### Each bracket is one that is opened -/

/-- Another token opens no bracket. -/
@[simp] theorem count_lbracket_cons {t : Token} {ts : List Token} (h : t ≠ .lbracket) :
    (t :: ts).count .lbracket = ts.count .lbracket := List.count_cons_of_ne h

@[simp] theorem Reference.count_lbracket (r : Reference) : [r.token].count .lbracket = 0 := by
  cases r <;> rfl

@[simp] theorem Written.count_lbracket (w : Written) : w.tokens.count .lbracket = 0 := by
  cases w with
  | typed body datatype => simp [Written.tokens]
  | reference r => exact r.count_lbracket
  | var | blank | plain | tagged | integer | decimal | double | trueKeyword | falseKeyword => rfl

@[simp] theorem Verb.count_lbracket (v : Verb) : v.tokens.count .lbracket = 0 := by
  cases v with
  | term w => exact w.count_lbracket
  | a | sameAs | implies => rfl

@[simp] theorem Arrow.count_lbracket (a : Arrow) : a.tokens.count .lbracket = 0 := by
  cases a with
  | term w => exact w.count_lbracket
  | implies | impliedBy => rfl

mutual

theorem Properties.count_lbracket (p : Properties) : p.tokens.count .lbracket = p.brackets := by
  cases p with
  | last verb objects k =>
    simp [Properties.tokens, Properties.brackets, List.count_replicate, objects.count_lbracket]
  | more verb objects k rest =>
    simp [Properties.tokens, Properties.brackets, List.count_replicate, objects.count_lbracket,
      rest.count_lbracket]

theorem Objects.count_lbracket (os : Objects) : os.tokens.count .lbracket = os.brackets := by
  cases os with
  | one object => exact object.count_lbracket
  | more object rest =>
    simp [Objects.tokens, Objects.brackets, object.count_lbracket, rest.count_lbracket]

theorem Object.count_lbracket (o : Object) : o.tokens.count .lbracket = o.brackets := by
  cases o with
  | term w => exact w.count_lbracket
  | bracket b => exact b.count_lbracket

theorem Bracket.count_lbracket (b : Bracket) : b.tokens.count .lbracket = b.brackets := by
  cases b with
  | empty => rfl
  | stating properties =>
    simp [Bracket.tokens, Bracket.brackets, properties.count_lbracket, Nat.add_comm]

end

attribute [simp] Properties.count_lbracket Bracket.count_lbracket

@[simp] theorem Sentence.count_lbracket (s : Sentence) : s.tokens.count .lbracket = s.brackets := by
  cases s <;> simp [Sentence.tokens, Sentence.brackets]

@[simp] theorem Block.count_lbracket (b : Block) : b.tokens.count .lbracket = b.brackets := by
  induction b with
  | done => rfl
  | dot rest ih => simp [Block.tokens, Block.brackets, ih]
  | last sentence => exact sentence.count_lbracket
  | more sentence rest ih => simp [Block.tokens, Block.brackets, ih]

@[simp] theorem Statement.count_lbracket (s : Statement) :
    s.tokens.count .lbracket = s.brackets := by
  cases s with
  | declare space iri | base iri => rfl
  | rule first arrow second => simp [Statement.tokens, Statement.brackets, Block.formula]
  | facts sentence => simp [Statement.tokens, Statement.brackets]

theorem Document.count_lbracket (d : Document) : d.tokens.count .lbracket = d.brackets := by
  induction d with
  | nil => rfl
  | cons s rest ih =>
    rw [tokens] at ih
    simp [tokens, brackets, ih]

/-! ### Where nodes come from -/

/-- The node is one of so many brackets, or a term whose label or name is in the tokens. -/
def Node.Within (tokens : List Token) (count : Nat) : Node → Prop
  | .bracket number => number < count
  | .written t =>
    (∀ label, t = .blank label → .blankLabel label ∈ tokens) ∧
      ∀ v : Variable, t = .var v → .var v.name ∈ tokens

section Within
variable {scope : Scope} {tokens : List Token} {count : Nat}

theorem Written.within (w : Written) (h : w.tokens ⊆ tokens) :
    (Node.written (w.value scope)).Within tokens count := by
  cases w with
  | blank label =>
    refine ⟨fun label' heq => ?_, nofun⟩
    cases heq
    exact h (List.mem_singleton_self _)
  | var name =>
    refine ⟨nofun, fun v heq => ?_⟩
    cases heq
    exact h (List.mem_singleton_self _)
  | reference | plain | tagged | typed | integer | decimal | double | trueKeyword | falseKeyword =>
    exact ⟨nofun, nofun⟩

theorem Verb.within (v : Verb) (h : v.tokens ⊆ tokens) :
    (Node.written (v.value scope)).Within tokens count := by
  cases v with
  | term w => exact w.within h
  | a | sameAs | implies => exact ⟨nofun, nofun⟩

theorem NodeTriple.forall_nodes {p : Node → Prop} {s : NodeTriple} :
    (∀ n ∈ s.nodes, p n) ↔ p s.subject ∧ p s.predicate ∧ p s.object := by
  simp [nodes]

/-- All nodes of the triples are within. -/
def AllWithin (tokens : List Token) (count : Nat) (ts : List NodeTriple) : Prop :=
  ∀ s ∈ ts, ∀ n ∈ s.nodes, n.Within tokens count

theorem allWithin_nil : AllWithin tokens count [] := List.forall_mem_nil _

theorem allWithin_append {ts us : List NodeTriple} :
    AllWithin tokens count (ts ++ us) ↔ AllWithin tokens count ts ∧ AllWithin tokens count us :=
  List.forall_mem_append

theorem allWithin_singleton {s : NodeTriple} (hs : s.subject.Within tokens count)
    (hp : s.predicate.Within tokens count) (ho : s.object.Within tokens count) :
    AllWithin tokens count [s] :=
  List.forall_mem_singleton.mpr (NodeTriple.forall_nodes.mpr ⟨hs, hp, ho⟩)

theorem Bracket.brackets_pos (b : Bracket) : 0 < b.brackets := by
  cases b with
  | empty => exact Nat.one_pos
  | stating properties => rw [Bracket.brackets]; omega

theorem Object.origin_within (o : Object) {before : Nat} (htokens : o.tokens ⊆ tokens)
    (hcount : before + o.brackets ≤ count) : (o.origin scope before).Within tokens count := by
  cases o with
  | term w => exact w.within htokens
  | bracket b =>
    have := b.brackets_pos
    rw [Object.brackets] at hcount
    show before < count
    omega

mutual

theorem Properties.within (p : Properties) {subject : Node} {before : Nat}
    (htokens : p.tokens ⊆ tokens) (hcount : before + p.brackets ≤ count)
    (hsubject : subject.Within tokens count) :
    AllWithin tokens count (p.nodeTriples scope subject before) := by
  cases p with
  | last verb objects k =>
    simp only [Properties.tokens, List.append_subset] at htokens
    exact objects.within htokens.1.2 hcount hsubject (verb.within htokens.1.1)
  | more verb objects k rest =>
    simp only [Properties.tokens, List.append_subset] at htokens
    rw [Properties.brackets] at hcount
    exact allWithin_append.mpr
      ⟨objects.within htokens.1.1.2 (by omega) hsubject (verb.within htokens.1.1.1),
        rest.within htokens.2 (by omega) hsubject⟩

theorem Objects.within (os : Objects) {subject verb : Node} {before : Nat}
    (htokens : os.tokens ⊆ tokens) (hcount : before + os.brackets ≤ count)
    (hsubject : subject.Within tokens count) (hverb : verb.Within tokens count) :
    AllWithin tokens count (os.nodeTriples scope subject verb before) := by
  cases os with
  | one object =>
    exact allWithin_append.mpr ⟨object.within htokens hcount,
      allWithin_singleton hsubject hverb (object.origin_within htokens hcount)⟩
  | more object rest =>
    simp only [Objects.tokens, List.append_subset, List.cons_subset] at htokens
    rw [Objects.brackets] at hcount
    exact allWithin_append.mpr ⟨allWithin_append.mpr ⟨object.within htokens.1 (by omega),
      allWithin_singleton hsubject hverb (object.origin_within htokens.1 (by omega))⟩,
      rest.within htokens.2.2 (by omega) hsubject hverb⟩

theorem Object.within (o : Object) {before : Nat} (htokens : o.tokens ⊆ tokens)
    (hcount : before + o.brackets ≤ count) :
    AllWithin tokens count (o.nodeTriples scope before) := by
  cases o with
  | term w => exact allWithin_nil
  | bracket b => exact b.within htokens hcount

theorem Bracket.within (b : Bracket) {before : Nat} (htokens : b.tokens ⊆ tokens)
    (hcount : before + b.brackets ≤ count) :
    AllWithin tokens count (b.nodeTriples scope before) := by
  cases b with
  | empty => exact allWithin_nil
  | stating properties =>
    simp only [Bracket.tokens, List.append_subset, List.cons_subset] at htokens
    rw [Bracket.brackets] at hcount
    -- the bracket itself is the subject, and its number comes before those inside
    exact properties.within htokens.1.2 (by omega) (show before < count by omega)

end

theorem Sentence.within (s : Sentence) {before : Nat} (htokens : s.tokens ⊆ tokens)
    (hcount : before + s.brackets ≤ count) :
    AllWithin tokens count (s.nodeTriples scope before) := by
  cases s with
  | said subject properties =>
    rw [Sentence.tokens, List.append_subset] at htokens
    exact properties.within htokens.2 hcount (subject.within htokens.1)
  | bracket b => exact b.within htokens hcount
  | bracketSaid b properties =>
    have := b.brackets_pos
    rw [Sentence.tokens, List.append_subset] at htokens
    rw [Sentence.brackets] at hcount
    exact allWithin_append.mpr ⟨b.within htokens.1 (by omega),
      properties.within htokens.2 (by omega) (show before < count by omega)⟩

theorem Block.within (b : Block) {before : Nat} (htokens : b.tokens ⊆ tokens)
    (hcount : before + b.brackets ≤ count) :
    AllWithin tokens count (b.nodeTriples scope before) := by
  induction b generalizing before with
  | done => exact allWithin_nil
  | dot rest ih =>
    rw [Block.tokens, List.cons_subset] at htokens
    exact ih htokens.2 hcount
  | last sentence => exact sentence.within htokens hcount
  | more sentence rest ih =>
    rw [Block.tokens, List.append_subset, List.cons_subset] at htokens
    rw [Block.brackets] at hcount
    exact allWithin_append.mpr ⟨sentence.within htokens.1 (by omega), ih htokens.2.2 (by omega)⟩

theorem Statement.within (s : Statement) {before : Nat} (htokens : s.tokens ⊆ tokens)
    (hcount : before + s.brackets ≤ count) :
    AllWithin tokens count (s.nodeTriples scope before) := by
  cases s with
  | declare space iri | base iri | rule first arrow second => exact allWithin_nil
  | facts sentence =>
    rw [Statement.tokens, List.append_subset] at htokens
    exact sentence.within htokens.1 hcount

theorem Statement.rules_within (s : Statement) {before : Nat} {place : Position}
    (htokens : s.tokens ⊆ tokens) (hcount : before + s.brackets ≤ count) :
    ∀ rule ∈ s.nodeRules scope before place, AllWithin tokens count (rule.body ++ rule.head) := by
  cases s with
  | declare space iri | base iri | facts sentence => exact List.forall_mem_nil _
  | rule first arrow second =>
    simp only [Statement.tokens, Block.formula, List.append_subset, List.cons_subset] at htokens
    rw [Statement.brackets] at hcount
    have hfirst : AllWithin tokens count (first.nodeTriples scope before) :=
      first.within htokens.1.1.1.1.2 (by omega)
    have hsecond : AllWithin tokens count (second.nodeTriples scope (before + first.brackets)) :=
      second.within htokens.1.2.1.2 (by omega)
    rw [Statement.nodeRules, List.forall_mem_singleton]
    cases arrow.reversed with
    | false => exact allWithin_append.mpr ⟨hfirst, hsecond⟩
    | true => exact allWithin_append.mpr ⟨hsecond, hfirst⟩

theorem Document.within (d : Document) (scope : Scope) (before : Nat) (places : List Position)
    (htokens : d.tokens ⊆ tokens) (hcount : before + d.brackets ≤ count) :
    AllWithin tokens count (d.nodeTriples scope before) ∧
      ∀ rule ∈ d.nodeRules scope before places,
        AllWithin tokens count (rule.body ++ rule.head) := by
  induction d generalizing scope before places with
  | nil => exact ⟨allWithin_nil, List.forall_mem_nil _⟩
  | cons s rest ih =>
    rw [Document.tokens, List.flatMap_cons, List.append_subset] at htokens
    rw [Document.brackets] at hcount
    obtain ⟨hfacts, hrules⟩ := ih (s.scope scope) (before + s.brackets)
      (places.drop s.tokens.length) htokens.2 (by omega)
    exact ⟨allWithin_append.mpr ⟨s.within htokens.1 (by omega), hfacts⟩,
      List.forall_mem_append.mpr ⟨s.rules_within htokens.1 (by omega), hrules⟩⟩

end Within

/-! ### Nodes that become one term -/

/-- The one is a bracket, the other the term that it becomes, written out. -/
def Node.Taken (m n : Node) : Prop :=
  ∃ number, (m = .bracket number ∧ n = .written (bracketNode number)) ∨
    (m = .written (bracketNode number) ∧ n = .bracket number)

theorem bracketNode_inj {j k : Nat} : bracketNode j = bracketNode k ↔ j = k := by
  refine ⟨fun heq => ?_, congrArg bracketNode⟩
  have hlabel := congrArg String.toList (Term.blank.inj heq)
  rw [String.toList_append, String.toList_append] at hlabel
  exact Nat.succ.inj
    (toString_injective (String.toList_injective (List.append_cancel_left hlabel)))

theorem Node.term_eq_iff {m n : Node} : m.term = n.term ↔ m = n ∨ Taken m n := by
  constructor
  · intro heq
    cases m with
    | bracket j =>
      cases n with
      | bracket k => exact .inl (congrArg bracket (bracketNode_inj.mp heq))
      | written t => exact .inr ⟨j, .inl ⟨rfl, congrArg written heq.symm⟩⟩
    | written s =>
      cases n with
      | bracket k => exact .inr ⟨k, .inr ⟨congrArg written heq, rfl⟩⟩
      | written t => exact .inl (congrArg written heq)
  · rintro (rfl | ⟨number, ⟨rfl, rfl⟩ | ⟨rfl, rfl⟩⟩) <;> rfl

/-- Within a rule, blank nodes and the variables that they become are one as well. -/
theorem Node.withoutBlank_eq_iff {m n : Node} :
    HornRule.withoutBlank m.term = HornRule.withoutBlank n.term ↔
      m = n ∨ Taken m n ∨ HornRule.Clash m.term n.term := by
  rw [HornRule.withoutBlank_eq_iff, term_eq_iff, or_assoc]

theorem NodeRule.positions_rule (r : NodeRule) : HornRule.positions r.rule.body r.rule.head =
    r.nodes.map fun n => HornRule.withoutBlank n.term := by
  rw [rule, HornRule.positions_ofAtoms, HornRule.positions, ← List.map_append, nodes,
    List.flatMap_map, List.map_flatMap, List.map_flatMap]
  rfl

/-- The label of a bracket's node. -/
def bracketLabel (number : Nat) : String := "gen" ++ toString (number + 1)

namespace Document

/-- The brackets' nodes differ from each other, and from each blank node that has a label. -/
def BracketsFresh (d : Document) : Prop :=
  ((d.numbers 0).map bracketNode).Nodup ∧
    ∀ number ∈ d.numbers 0, ∀ label, .blankLabel label ∈ d.tokens →
      bracketNode number ≠ .blank label

variable (d : Document)

theorem numbers_eq_range : d.numbers 0 = List.range (d.tokens.count .lbracket) := by
  rw [d.numbers_eq, d.count_lbracket, List.range_eq_range']

theorem nodup_bracketNodes : ((d.numbers 0).map bracketNode).Nodup := by
  rw [d.numbers_eq_range]
  exact List.nodup_range.map fun _ _ => bracketNode_inj.mp

theorem bracketsFresh_iff : d.BracketsFresh ↔
    ∀ number < d.tokens.count .lbracket, .blankLabel (bracketLabel number) ∉ d.tokens := by
  rw [BracketsFresh, and_iff_right d.nodup_bracketNodes, d.numbers_eq_range]
  simp only [List.mem_range]
  constructor
  · exact fun h number hlt hmem => h number hlt _ hmem rfl
  · intro h number hlt label hmem heq
    cases heq
    exact h number hlt hmem

variable {d : Document} {m n : Node}

/-- If the labels are not written, no node within the document is taken for another. -/
theorem not_taken (h : d.BracketsFresh) (hm : m.Within d.tokens d.brackets)
    (hn : n.Within d.tokens d.brackets) : ¬ Node.Taken m n := by
  rw [bracketsFresh_iff, count_lbracket] at h
  rintro ⟨number, ⟨rfl, rfl⟩ | ⟨rfl, rfl⟩⟩
  · exact h number hm (hn.1 _ rfl)
  · exact h number hn (hm.1 _ rfl)

/-- If no variable with such a label is written either, a bracket stays alone in a rule. -/
theorem withoutBlank_bracketNode_iff {number : Nat} (h : d.BracketsFresh)
    (hvars : ∀ k < d.tokens.count .lbracket, .var ("_" ++ bracketLabel k) ∉ d.tokens)
    (hnumber : number < d.brackets) (hn : n.Within d.tokens d.brackets) :
    HornRule.withoutBlank (bracketNode number) = HornRule.withoutBlank n.term ↔
      n = .bracket number := by
  have htaken : ¬ Node.Taken (.bracket number) n := not_taken h hnumber hn
  -- the bracket is a blank node, so what clashes with it is a variable, which is written
  have hclash : ¬ HornRule.Clash (Node.bracket number).term n.term := by
    rintro ⟨label, ⟨hlabel, hvar⟩ | ⟨hvar, _⟩⟩
    · cases hlabel
      cases n with
      | bracket k => cases hvar
      | written t => exact hvars number (d.count_lbracket ▸ hnumber) (hn.2 _ hvar)
    · cases hvar
  show HornRule.withoutBlank (Node.bracket number).term = HornRule.withoutBlank n.term ↔ _
  rw [Node.withoutBlank_eq_iff, or_iff_left (not_or.mpr ⟨htaken, hclash⟩), eq_comm]

end Document

/-- **The nodes of brackets.** What is read from a text is what its document states of nodes. The
brackets are numbered in order, so their nodes stay apart from each other. They stay apart from all
else that is written if and only if no blank node is written with a label `gen1`, `gen2` and so on,
up to the number of brackets; then no two nodes of the facts become one term. In a rule, where
blank nodes become variables, no variable may be written with such a label behind an underscore
either. -/
theorem parseWith_brackets {prefixes : SortedMap String String} {text : String} {r : Ruleset}
    (h : parseWith prefixes text = .ok r) :
    ∃ (tokens : List (Token × Position)) (d : Document),
      tokensOf (lex text) = .ok tokens ∧ d.tokens = tokens.map Prod.fst ∧
      r.facts = (d.nodeTriples ⟨prefixes, none⟩ 0).map NodeTriple.triple ∧
      r.rules = (d.nodeRules ⟨prefixes, none⟩ 0 (tokens.map Prod.snd)).map NodeRule.rule ∧
      d.numbers 0 = List.range (d.tokens.count .lbracket) ∧
      ((d.numbers 0).map bracketNode).Nodup ∧
      (d.BracketsFresh ↔
        ∀ number < d.tokens.count .lbracket, .blankLabel (bracketLabel number) ∉ d.tokens) ∧
      (d.BracketsFresh → ∀ s ∈ d.nodeTriples ⟨prefixes, none⟩ 0,
        ∀ s' ∈ d.nodeTriples ⟨prefixes, none⟩ 0, ∀ m ∈ s.nodes, ∀ n ∈ s'.nodes,
          (m.term = n.term ↔ m = n)) ∧
      ∀ rule ∈ d.nodeRules ⟨prefixes, none⟩ 0 (tokens.map Prod.snd),
        (HornRule.positions rule.rule.body rule.rule.head =
          rule.nodes.map fun n => HornRule.withoutBlank n.term) ∧
        (d.BracketsFresh →
          (∀ number < d.tokens.count .lbracket, .var ("_" ++ bracketLabel number) ∉ d.tokens) →
          ∀ number n, .bracket number ∈ rule.nodes → n ∈ rule.nodes →
            (HornRule.withoutBlank (bracketNode number) = HornRule.withoutBlank n.term ↔
              n = .bracket number)) := by
  obtain ⟨tokens, htokens, hread⟩ := tokens_of_parseWith h
  obtain ⟨d, hd, _, rfl⟩ := document_of_parseTokens hread
  obtain ⟨hfacts, hrules⟩ := d.ruleset_eq ⟨prefixes, none⟩ 0 (tokens.map Prod.snd)
  obtain ⟨hwithin, hwithinRules⟩ := d.within ⟨prefixes, none⟩ 0 (tokens.map Prod.snd)
    (List.Subset.refl _) (Nat.le_of_eq (Nat.zero_add _))
  refine ⟨tokens, d, htokens, hd, hfacts, hrules, d.numbers_eq_range, d.nodup_bracketNodes,
    d.bracketsFresh_iff, fun hfresh s hs s' hs' m hm n hn => ?_, fun rule hrule =>
      ⟨rule.positions_rule, fun hfresh hvars number n hnumber hn => ?_⟩⟩
  · rw [Node.term_eq_iff,
      or_iff_left (Document.not_taken hfresh (hwithin s hs m hm) (hwithin s' hs' n hn))]
  · have hall : ∀ n ∈ rule.nodes, n.Within d.tokens d.brackets :=
      List.forall_mem_flatMap.mpr (hwithinRules rule hrule)
    exact Document.withoutBlank_bracketNode_iff hfresh hvars (hall _ hnumber) (hall n hn)

/-- Two brackets in facts, one in a rule, and labels that no bracket has. -/
def freshText : String := "[ <p> [] ] <q> _:b . { ?x <p> [ <q> _:gen4 ] } => { ?x <r> _:b } ."

theorem parseWith_brackets_of_fresh : ∃ (r : Ruleset) (d : Document),
    parseWith ∅ freshText = .ok r ∧ r.facts = (d.nodeTriples ⟨∅, none⟩ 0).map NodeTriple.triple ∧
      r.facts.length = 2 ∧ r.rules.length = 1 ∧ d.numbers 0 = [0, 1, 2] ∧ d.BracketsFresh := by
  have hlengths : (parseWith ∅ freshText).toOption.map (fun r => (r.facts.length, r.rules.length)) =
      some (2, 1) := by decide +kernel
  have hlabels : (tokensOf (lex freshText)).toOption.map (fun tokens =>
      decide ((tokens.map Prod.fst).count Token.lbracket = 3 ∧ ∀ number < 3,
        Token.blankLabel (bracketLabel number) ∉ tokens.map Prod.fst)) = some true := by
    decide +kernel
  cases hparse : parseWith ∅ freshText with
  | error fault =>
    rw [hparse] at hlengths
    cases hlengths
  | ok r =>
    rw [hparse] at hlengths
    obtain ⟨hfactsLength, hrulesLength⟩ := Prod.mk.inj (Option.some.inj hlengths)
    obtain ⟨tokens, d, htokens, hd, hfacts, _, hnumbers, _, hfresh, _⟩ := parseWith_brackets hparse
    rw [htokens] at hlabels
    obtain ⟨hcount, habsent⟩ := of_decide_eq_true (Option.some.inj hlabels)
    rw [hd, hcount] at hnumbers hfresh
    exact ⟨r, d, rfl, hfacts, hfactsLength, hrulesLength, hnumbers, hfresh.mpr habsent⟩

/-- A document that writes the label of its bracket's node. -/
def takenText : String := "[ <p> <o> ] <q> <r> . _:gen1 <s> <t> ."

def takenDocument : Document :=
  let word (iri : String) : Written := .reference (.full iri)
  let stating (p o : String) : Properties := .last (.term (word p)) (.one (.term (word o))) 0
  [.facts (.bracketSaid (.stating (stating "p" "o")) (stating "q" "r")),
    .facts (.said (.blank "gen1") (stating "s" "t"))]

/-- What is said of the bracket and what is said of the label becomes said of one node. -/
theorem label_taken :
    (tokensOf (lex takenText)).toOption.map (·.map Prod.fst) = some takenDocument.tokens ∧
    ¬ takenDocument.BracketsFresh ∧
    (takenDocument.nodeTriples ⟨∅, none⟩ 0).map NodeTriple.subject =
      [.bracket 0, .bracket 0, .written (.blank "gen1")] ∧
    (parse takenText).toOption.map (·.facts) = some [⟨.blank "gen1", .iri "p", .iri "o"⟩,
      ⟨.blank "gen1", .iri "q", .iri "r"⟩, ⟨.blank "gen1", .iri "s", .iri "t"⟩] := by
  refine ⟨by decide +kernel, fun h => ?_, by decide +kernel, by decide +kernel⟩
  exact h.2 0 (by decide) "gen1" (by decide) rfl

end HornReasoner.N3
