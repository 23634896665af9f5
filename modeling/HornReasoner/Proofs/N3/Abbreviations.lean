import HornReasoner.Proofs.N3.Brackets
import HornReasoner.Proofs.N3.Uniqueness

/-! Abbreviations.

Semicolons, commas and brackets can be written out: a statement for each triple, one behind the
other, and a label in the place of each bracket (`Document.plain`). A text and the text that is
written out are parsed alike (`Document.alike_of_plain`); so are two texts that come to the same when
they are written out. -/
namespace HornReasoner.N3

/-! ### Writing out -/

/-- A subject, a verb and an object as they are written. -/
structure Plain where
  subject : Written
  verb : Verb
  object : Written

namespace Plain

def sentence (s : Plain) : Sentence := .said s.subject (.last s.verb (.one (.term s.object)) 0)

def triple (scope : Scope) (s : Plain) : Triple :=
  ⟨s.subject.value scope, s.verb.value scope, s.object.value scope⟩

end Plain

/-- The node of a bracket, written with its label. -/
def bracketWritten (before : Nat) : Written := .blank (bracketLabel before)

def Object.written (before : Nat) : Object → Written
  | .term w => w
  | .bracket _ => bracketWritten before

mutual

def Properties.plain (subject : Written) (before : Nat) : Properties → List Plain
  | .last verb objects _ => objects.plain subject verb before
  | .more verb objects _ rest =>
    objects.plain subject verb before ++ rest.plain subject (before + objects.brackets)

def Objects.plain (subject : Written) (verb : Verb) (before : Nat) : Objects → List Plain
  | .one object => object.plain before ++ [⟨subject, verb, object.written before⟩]
  | .more object rest =>
    object.plain before ++ [⟨subject, verb, object.written before⟩] ++
      rest.plain subject verb (before + object.brackets)

/-- What is stated inside an object. -/
def Object.plain (before : Nat) : Object → List Plain
  | .term _ => []
  | .bracket b => b.plain before

def Bracket.plain (before : Nat) : Bracket → List Plain
  | .empty => []
  | .stating properties => properties.plain (bracketWritten before) (before + 1)

end

def Sentence.plain (before : Nat) : Sentence → List Plain
  | .said subject properties => properties.plain subject before
  | .bracket b => b.plain before
  | .bracketSaid b properties =>
    b.plain before ++ properties.plain (bracketWritten before) (before + b.brackets)

namespace Block

def plain (before : Nat) : Block → List Plain
  | done => []
  | dot rest => rest.plain before
  | last sentence => sentence.plain before
  | more sentence rest => sentence.plain before ++ rest.plain (before + sentence.brackets)

/-- A sentence for each triple, with a dot behind it. -/
def ofPlain : List Plain → Block
  | [] => done
  | s :: rest => more s.sentence (ofPlain rest)

end Block

def Statement.plain (before : Nat) : Statement → List Statement
  | facts sentence => (sentence.plain before).map fun s => facts s.sentence
  | rule first arrow second =>
    [rule (.ofPlain (first.plain before)) arrow (.ofPlain (second.plain (before + first.brackets)))]
  | declare space iri => [declare space iri]
  | base iri => [base iri]

/-- The document written out, a statement for each triple. -/
def Document.plain (before : Nat) : Document → Document
  | [] => []
  | s :: rest => s.plain before ++ plain (before + s.brackets) rest

/-! ### What is said -/

section Triples
variable (scope : Scope)

mutual

theorem Properties.triples_plain (subject : Written) (before : Nat) (p : Properties) :
    p.triples scope (subject.value scope) before = (p.plain subject before).map (Plain.triple scope) := by
  match p with
  | .last verb objects _ => exact Objects.triples_plain subject verb before objects
  | .more verb objects _ rest =>
    rw [Properties.triples, Properties.plain, List.map_append,
      Objects.triples_plain subject verb before objects, Properties.triples_plain subject _ rest]

theorem Objects.triples_plain (subject : Written) (verb : Verb) (before : Nat) (os : Objects) :
    os.triples scope (subject.value scope) (verb.value scope) before =
      (os.plain subject verb before).map (Plain.triple scope) := by
  match os with
  | .one object =>
    obtain ⟨hinner, hnode⟩ := Object.triples_plain before object
    rw [Objects.triples, Objects.plain, List.map_append, hinner, hnode]
    rfl
  | .more object rest =>
    obtain ⟨hinner, hnode⟩ := Object.triples_plain before object
    rw [Objects.triples, Objects.plain, List.map_append, List.map_append, hinner, hnode,
      Objects.triples_plain subject verb _ rest]
    rfl

theorem Object.triples_plain (before : Nat) (o : Object) :
    o.inner scope before = (o.plain before).map (Plain.triple scope) ∧
      o.node scope before = (o.written before).value scope := by
  match o with
  | .term w => exact ⟨rfl, rfl⟩
  | .bracket b => exact ⟨Bracket.triples_plain before b, rfl⟩

theorem Bracket.triples_plain (before : Nat) (b : Bracket) :
    b.triples scope before = (b.plain before).map (Plain.triple scope) := by
  match b with
  | .empty => rfl
  | .stating properties =>
    exact Properties.triples_plain (bracketWritten before) (before + 1) properties

end

theorem Sentence.triples_plain (before : Nat) (sentence : Sentence) :
    sentence.triples scope before = (sentence.plain before).map (Plain.triple scope) := by
  cases sentence with
  | said subject properties => exact properties.triples_plain scope subject before
  | bracket b => exact b.triples_plain scope before
  | bracketSaid b properties =>
    rw [triples, plain, List.map_append, b.triples_plain]
    exact congrArg _ (properties.triples_plain scope (bracketWritten before) _)

namespace Block

theorem triples_plain (before : Nat) (b : Block) :
    b.triples scope before = (b.plain before).map (Plain.triple scope) := by
  induction b generalizing before with
  | done => rfl
  | dot rest ih => exact ih before
  | last sentence => exact sentence.triples_plain scope before
  | more sentence rest ih => rw [triples, plain, List.map_append, sentence.triples_plain, ih]

theorem triples_ofPlain (before : Nat) (ss : List Plain) :
    (ofPlain ss).triples scope before = ss.map (Plain.triple scope) := by
  induction ss with
  | nil => rfl
  | cons s rest ih =>
    rw [ofPlain, triples, List.map_cons]
    exact congrArg (s.triple scope :: ·) ih

end Block
end Triples

/-! ### What is declared -/

/-- Every namespace that is used when these are written is declared. -/
def Scope.DeclaresAll (scope : Scope) (ss : List Plain) : Prop :=
  ∀ s ∈ ss, scope.Declares s.sentence.tokens

section Declares
variable {scope : Scope}

theorem Plain.declares_sentence {s : Plain} : scope.Declares s.sentence.tokens ↔
    scope.Declares s.subject.tokens ∧ scope.Declares s.verb.tokens ∧
      scope.Declares s.object.tokens := by
  simp [Plain.sentence, Sentence.tokens, Properties.tokens, Objects.tokens, Object.tokens]

@[simp] theorem Scope.declaresAll_nil : scope.DeclaresAll [] := List.forall_mem_nil _

@[simp] theorem Scope.declaresAll_append {ss ss' : List Plain} :
    scope.DeclaresAll (ss ++ ss') ↔ scope.DeclaresAll ss ∧ scope.DeclaresAll ss' :=
  List.forall_mem_append

theorem Scope.declaresAll_singleton {s : Plain} :
    scope.DeclaresAll [s] ↔ scope.Declares s.sentence.tokens := List.forall_mem_singleton

theorem declares_bracketWritten (before : Nat) : scope.Declares (bracketWritten before).tokens :=
  Scope.declares_token rfl

mutual

theorem Properties.declares_plain {subject : Written} (hsubject : scope.Declares subject.tokens)
    (before : Nat) (p : Properties) :
    scope.Declares p.tokens ↔ scope.DeclaresAll (p.plain subject before) := by
  match p with
  | .last verb objects k =>
    rw [Properties.tokens, Scope.declares_append, Scope.declares_append, Properties.plain,
      and_iff_left (Scope.declares_semicolons k), Objects.declares_plain hsubject verb before objects]
  | .more verb objects k rest =>
    rw [Properties.tokens, Scope.declares_append, Scope.declares_append, Scope.declares_append,
      Properties.plain, Scope.declaresAll_append, and_iff_left (Scope.declares_semicolons (k + 1)),
      Objects.declares_plain hsubject verb before objects,
      Properties.declares_plain hsubject _ rest]

theorem Objects.declares_plain {subject : Written} (hsubject : scope.Declares subject.tokens)
    (verb : Verb) (before : Nat) (os : Objects) :
    scope.Declares verb.tokens ∧ scope.Declares os.tokens ↔
      scope.DeclaresAll (os.plain subject verb before) := by
  match os with
  | .one object =>
    rw [Objects.tokens, Object.declares_plain before object, Objects.plain,
      Scope.declaresAll_append, Scope.declaresAll_singleton, Plain.declares_sentence,
      and_iff_right hsubject, and_left_comm]
  | .more object rest =>
    rw [Objects.tokens, Scope.declares_append, Scope.declares_cons,
      Object.declares_plain before object, Objects.plain, Scope.declaresAll_append,
      Scope.declaresAll_append, Scope.declaresAll_singleton, Plain.declares_sentence,
      ← Objects.declares_plain hsubject verb _ rest]
    have hcomma : scope.Declares [.comma] := Scope.declares_token rfl
    tauto

theorem Object.declares_plain (before : Nat) (o : Object) :
    scope.Declares o.tokens ↔
      scope.DeclaresAll (o.plain before) ∧ scope.Declares (o.written before).tokens := by
  match o with
  | .term w => exact (and_iff_right Scope.declaresAll_nil).symm
  | .bracket b =>
    exact (Bracket.declares_plain before b).trans (and_iff_left (declares_bracketWritten before)).symm

theorem Bracket.declares_plain (before : Nat) (b : Bracket) :
    scope.Declares b.tokens ↔ scope.DeclaresAll (b.plain before) := by
  match b with
  | .empty => exact iff_of_true (Scope.declares_of_no_name (by decide)) Scope.declaresAll_nil
  | .stating properties =>
    rw [Bracket.tokens, List.cons_append, Scope.declares_cons, Scope.declares_append,
      and_iff_right (Scope.declares_token rfl), and_iff_left (Scope.declares_token rfl),
      Properties.declares_plain (declares_bracketWritten before) (before + 1) properties]
    rfl

end

/-- What is said of a subject names it. -/
theorem Properties.exists_plain (subject : Written) (before : Nat) (p : Properties) :
    ∃ s ∈ p.plain subject before, s.subject = subject := by
  have hobjects (verb : Verb) (os : Objects) : ∃ s ∈ os.plain subject verb before,
      s.subject = subject := by
    cases os with
    | one object => exact ⟨⟨subject, verb, object.written before⟩, by simp [Objects.plain], rfl⟩
    | more object rest => exact ⟨⟨subject, verb, object.written before⟩, by simp [Objects.plain], rfl⟩
  cases p with
  | last verb objects => exact hobjects verb objects
  | more verb objects k rest =>
    obtain ⟨s, hs, hsubject⟩ := hobjects verb objects
    exact ⟨s, List.mem_append_left _ hs, hsubject⟩

theorem Sentence.declares_plain (before : Nat) (sentence : Sentence) :
    scope.Declares sentence.tokens ↔ scope.DeclaresAll (sentence.plain before) := by
  cases sentence with
  | said subject properties =>
    rw [tokens, Scope.declares_append]
    constructor
    · exact fun h => (properties.declares_plain h.1 before).mp h.2
    · intro h
      obtain ⟨s, hs, rfl⟩ := properties.exists_plain subject before
      have hsubject := (Plain.declares_sentence.mp (h s hs)).1
      exact ⟨hsubject, (properties.declares_plain hsubject before).mpr h⟩
  | bracket b => exact b.declares_plain before
  | bracketSaid b properties =>
    rw [tokens, Scope.declares_append, plain, Scope.declaresAll_append, b.declares_plain before,
      properties.declares_plain (declares_bracketWritten before)]

namespace Block

theorem declares_plain (before : Nat) (b : Block) :
    scope.Declares b.tokens ↔ scope.DeclaresAll (b.plain before) := by
  induction b generalizing before with
  | done => exact iff_of_true Scope.declares_nil Scope.declaresAll_nil
  | dot rest ih =>
    rw [tokens, Scope.declares_cons, and_iff_right (Scope.declares_token rfl), ih before, plain]
  | last sentence => exact sentence.declares_plain before
  | more sentence rest ih =>
    rw [tokens, Scope.declares_append, Scope.declares_cons,
      and_iff_right (Scope.declares_token rfl), plain, Scope.declaresAll_append,
      sentence.declares_plain before, ih]

theorem declares_ofPlain {ss : List Plain} :
    scope.Declares (ofPlain ss).tokens ↔ scope.DeclaresAll ss := by
  induction ss with
  | nil => exact iff_of_true Scope.declares_nil Scope.declaresAll_nil
  | cons s rest ih =>
    rw [ofPlain, tokens, Scope.declares_append, Scope.declares_cons,
      and_iff_right (Scope.declares_token rfl), ih, Scope.DeclaresAll, Scope.DeclaresAll,
      List.forall_mem_cons]

theorem declares_formula (b : Block) : scope.Declares b.formula ↔ scope.Declares b.tokens := by
  rw [formula, List.cons_append, Scope.declares_cons, Scope.declares_append,
    and_iff_right (Scope.declares_token rfl), and_iff_left (Scope.declares_token rfl)]

end Block
end Declares

/-! ### What is accepted and read -/

/-- Rules without their labels, which tell where they are written. -/
def unlabelled (rules : List HornRule) : List HornRule :=
  rules.map fun rule => { rule with label := "" }

theorem unlabelled_append (rules rules' : List HornRule) :
    unlabelled (rules ++ rules') = unlabelled rules ++ unlabelled rules' := List.map_append

namespace Document

theorem admissible_facts (scope : Scope) (before : Nat) (ss : List Plain) (d : Document) :
    Admissible scope before ((ss.map fun s => .facts s.sentence) ++ d) ↔
      (scope.DeclaresAll ss ∧ ∀ t ∈ ss.map (Plain.triple scope), t.hasVariables = false) ∧
        d.Admissible scope before := by
  induction ss with
  | nil => simp
  | cons s rest ih =>
    have hone : (∀ t ∈ s.sentence.triples scope before, t.hasVariables = false) ↔
        (s.triple scope).hasVariables = false := List.forall_mem_singleton
    show (scope.Declares s.sentence.tokens ∧ ∀ t ∈ s.sentence.triples scope before, _) ∧
      Admissible scope before ((rest.map fun s => .facts s.sentence) ++ d) ↔ _
    rw [ih, hone, Scope.DeclaresAll, Scope.DeclaresAll, List.forall_mem_cons, List.map_cons,
      List.forall_mem_cons]
    tauto

theorem admissible_plain (d : Document) (scope : Scope) (before before' : Nat) :
    (d.plain before).Admissible scope before' ↔ d.Admissible scope before := by
  induction d generalizing scope before before' with
  | nil => exact Iff.rfl
  | cons s rest ih =>
    cases s with
    | declare | base => exact and_congr Iff.rfl (ih _ _ _)
    | rule first arrow second =>
      refine and_congr (and_congr ?_ Iff.rfl) (ih _ _ _)
      simp only [Statement.tokens, Scope.declares_append, Block.declares_formula,
        Block.declares_ofPlain, ← Block.declares_plain]
    | facts sentence =>
      refine (admissible_facts scope before' _ _).trans (and_congr (and_congr ?_ ?_) (ih _ _ _))
      · exact (sentence.declares_plain before).symm
      · rw [← sentence.triples_plain]

/-- What the document says, but for the labels of rules. -/
def reading (scope : Scope) (before : Nat) : Document → Ruleset
  | [] => { prefixes := scope.prefixes }
  | s :: rest =>
    let others := reading (s.scope scope) (before + s.brackets) rest
    { others with
      rules := unlabelled (s.rules scope before {}) ++ others.rules
      facts := s.triples scope before ++ others.facts }

theorem reading_eq (d : Document) (scope : Scope) (before : Nat) (places : List Position) :
    d.reading scope before =
      { d.ruleset scope before places with
        rules := unlabelled (d.ruleset scope before places).rules } := by
  induction d generalizing scope before places with
  | nil => rfl
  | cons s rest ih =>
    have hrules : unlabelled (s.rules scope before (places.headD {})) =
        unlabelled (s.rules scope before {}) := by
      cases s <;> rfl
    simp only [reading, ih _ _ (places.drop s.tokens.length), ruleset, unlabelled_append, hrules]

theorem reading_facts (ss : List Plain) (d : Document) (scope : Scope) (before : Nat) :
    reading scope before ((ss.map fun s => .facts s.sentence) ++ d) =
      { d.reading scope before with
        facts := ss.map (Plain.triple scope) ++ (d.reading scope before).facts } := by
  induction ss with
  | nil => rfl
  | cons s rest ih =>
    have hone (d : Document) : reading scope before (.facts s.sentence :: d) =
        { d.reading scope before with
          facts := s.triple scope :: (d.reading scope before).facts } := rfl
    rw [List.map_cons, List.cons_append, hone, ih]
    rfl

/-- Written out, a document says the same. -/
theorem reading_plain (d : Document) (scope : Scope) (before before' : Nat) :
    (d.plain before).reading scope before' = d.reading scope before := by
  induction d generalizing scope before before' with
  | nil => rfl
  | cons s rest ih =>
    rw [reading]
    cases s with
    | declare | base =>
      rw [plain, Statement.plain, List.singleton_append, reading, ih]
      rfl
    | rule first arrow second =>
      rw [plain, Statement.plain, List.singleton_append, reading, ih]
      have hrules : (Statement.rule (.ofPlain (first.plain before)) arrow
          (.ofPlain (second.plain (before + first.brackets)))).rules scope before' {} =
          (Statement.rule first arrow second).rules scope before {} := by
        simp only [Statement.rules, Block.triples_ofPlain, ← Block.triples_plain]
      rw [hrules]
      rfl
    | facts sentence =>
      rw [plain, Statement.plain, reading_facts, ih, ← sentence.triples_plain]
      rfl

/-- The text has the tokens of the document. -/
def WrittenAs (d : Document) (text : String) : Prop :=
  ∃ tokens, tokensOf (lex text) = .ok tokens ∧ d.tokens = tokens.map Prod.fst

theorem writtenAs_iff {d : Document} {text : String} : d.WrittenAs text ↔
    (tokensOf (lex text)).toOption.map (·.map Prod.fst) = some d.tokens := by
  rw [WrittenAs]
  cases tokensOf (lex text) with
  | error fault => exact ⟨nofun, nofun⟩
  | ok tokens =>
    exact ⟨fun ⟨_, h, hd⟩ => by cases h; exact congrArg some hd.symm,
      fun h => ⟨tokens, rfl, (Option.some.inj h).symm⟩⟩

end Document

/-- Both are refused, or both are accepted and differ in the labels of rules only. -/
inductive Alike : Except RuleError Ruleset → Except RuleError Ruleset → Prop
  | accepted {r r' : Ruleset} (hprefixes : r.prefixes = r'.prefixes) (hfacts : r.facts = r'.facts)
    (hrules : unlabelled r.rules = unlabelled r'.rules) : Alike (.ok r) (.ok r')
  | refused (fault fault' : RuleError) : Alike (.error fault) (.error fault')

namespace Document
variable {d d' : Document} {text text' : String} (prefixes : SortedMap String String)

theorem parseWith_of_writtenAs (h : d.WrittenAs text) :
    (d.Admissible ⟨prefixes, none⟩ 0 ∧ ∃ r, parseWith prefixes text = .ok r ∧
      d.reading ⟨prefixes, none⟩ 0 = { r with rules := unlabelled r.rules }) ∨
    ¬ d.Admissible ⟨prefixes, none⟩ 0 ∧ ∃ fault, parseWith prefixes text = .error fault := by
  obtain ⟨tokens, htokens, hd⟩ := h
  rw [parseWith_of_tokens htokens]
  cases hread : parseTokens prefixes tokens (Position.advance {} text.toList) with
  | ok r =>
    obtain ⟨hadmissible, rfl⟩ := (accepted_iff hd).mp hread
    exact .inl ⟨hadmissible, _, rfl, d.reading_eq _ 0 _⟩
  | error fault =>
    refine .inr ⟨fun hadmissible => ?_, _, rfl⟩
    rw [(accepted_iff hd).mpr ⟨hadmissible, rfl⟩] at hread
    cases hread

/-- Texts that come to the same when they are written out are parsed alike. -/
theorem alike_of_plain (h : d.WrittenAs text) (h' : d'.WrittenAs text')
    (hplain : d.plain 0 = d'.plain 0) :
    Alike (parseWith prefixes text) (parseWith prefixes text') := by
  have hadmissible : d.Admissible ⟨prefixes, none⟩ 0 ↔ d'.Admissible ⟨prefixes, none⟩ 0 := by
    rw [← d.admissible_plain _ 0 0, hplain, d'.admissible_plain _ 0 0]
  have hreading : d.reading ⟨prefixes, none⟩ 0 = d'.reading ⟨prefixes, none⟩ 0 := by
    rw [← d.reading_plain _ 0 0, hplain, d'.reading_plain _ 0 0]
  obtain ⟨hd, r, hr, hsaid⟩ | ⟨hd, fault, hr⟩ := parseWith_of_writtenAs prefixes h <;>
    obtain ⟨hd', r', hr', hsaid'⟩ | ⟨hd', fault', hr'⟩ := parseWith_of_writtenAs prefixes h'
  · rw [hr, hr']
    obtain ⟨hprefixes, hrules, hfacts⟩ := Ruleset.mk.inj (hsaid.symm.trans (hreading.trans hsaid'))
    exact .accepted hprefixes hfacts hrules
  · exact absurd (hadmissible.mp hd) hd'
  · exact absurd (hadmissible.mpr hd') hd
  · rw [hr, hr']
    exact .refused fault fault'

end Document

/-! ### Commas and semicolons -/

/-- A verb, its objects, and the semicolons behind them, not counting the one that has to stand
before another verb. -/
structure Group where
  verb : Verb
  first : Written
  others : List Written
  semicolons : Nat

def Objects.ofTerms (first : Written) : List Written → Objects
  | [] => .one (.term first)
  | next :: others => .more (.term first) (ofTerms next others)

def Properties.ofGroups (g : Group) : List Group → Properties
  | [] => .last g.verb (.ofTerms g.first g.others) g.semicolons
  | next :: others => .more g.verb (.ofTerms g.first g.others) g.semicolons (ofGroups next others)

/-- One by one. -/
def Group.plain (subject : Written) (g : Group) : List Plain :=
  (g.first :: g.others).map fun object => ⟨subject, g.verb, object⟩

theorem Objects.plain_ofTerms (subject : Written) (verb : Verb) (before : Nat) (first : Written)
    (others : List Written) : (ofTerms first others).brackets = 0 ∧
      (ofTerms first others).plain subject verb before =
        (first :: others).map fun object => ⟨subject, verb, object⟩ := by
  induction others generalizing first with
  | nil => exact ⟨rfl, rfl⟩
  | cons next others ih =>
    obtain ⟨hbrackets, hplain⟩ := ih next
    refine ⟨?_, ?_⟩
    · rw [ofTerms, brackets, hbrackets]
      rfl
    · rw [List.map_cons, ← hplain]
      rfl

theorem Properties.plain_ofGroups (subject : Written) (before : Nat) (g : Group)
    (gs : List Group) : (ofGroups g gs).brackets = 0 ∧
      (ofGroups g gs).plain subject before = (g :: gs).flatMap (Group.plain subject) := by
  induction gs generalizing g with
  | nil =>
    obtain ⟨hbrackets, hplain⟩ := Objects.plain_ofTerms subject g.verb before g.first g.others
    refine ⟨hbrackets, ?_⟩
    rw [List.flatMap_cons, List.flatMap_nil, List.append_nil]
    exact hplain
  | cons next gs ih =>
    obtain ⟨hbrackets, hplain⟩ := Objects.plain_ofTerms subject g.verb before g.first g.others
    obtain ⟨hbrackets', hplain'⟩ := ih next
    refine ⟨?_, ?_⟩
    · rw [ofGroups, brackets, hbrackets, hbrackets']
    · rw [ofGroups, plain, hplain, hbrackets, Nat.add_zero, hplain', List.flatMap_cons]
      rfl

/-! ### Places of sentences -/

/-- The sentences between a formula's braces. -/
def Block.sentences : Block → List Sentence
  | .done => []
  | .dot rest => rest.sentences
  | .last sentence => [sentence]
  | .more sentence rest => sentence :: rest.sentences

namespace Sentence

/-- Sentences written out, one behind the other. -/
def plainAll (before : Nat) : List Sentence → List Plain
  | [] => []
  | s :: rest => s.plain before ++ plainAll (before + s.brackets) rest

/-- The number of brackets in sentences. -/
def bracketsAll : List Sentence → Nat
  | [] => 0
  | s :: rest => s.brackets + bracketsAll rest

theorem bracketsAll_append (ss ss' : List Sentence) :
    bracketsAll (ss ++ ss') = bracketsAll ss + bracketsAll ss' := by
  induction ss with
  | nil => exact (Nat.zero_add _).symm
  | cons s rest ih => rw [List.cons_append, bracketsAll, bracketsAll, ih, Nat.add_assoc]

theorem plainAll_append (before : Nat) (ss ss' : List Sentence) : plainAll before (ss ++ ss') =
    plainAll before ss ++ plainAll (before + bracketsAll ss) ss' := by
  induction ss generalizing before with
  | nil => rfl
  | cons s rest ih =>
    rw [List.cons_append, plainAll, plainAll, ih, List.append_assoc, bracketsAll, Nat.add_assoc]

/-- One by one, there is nothing to write out. -/
theorem plainAll_plain (before : Nat) (ss : List Plain) :
    plainAll before (ss.map Plain.sentence) = ss ∧ bracketsAll (ss.map Plain.sentence) = 0 := by
  induction ss with
  | nil => exact ⟨rfl, rfl⟩
  | cons s rest ih => exact ⟨congrArg (s :: ·) ih.1, (Nat.zero_add _).trans ih.2⟩

end Sentence

theorem Block.plain_eq (before : Nat) (b : Block) :
    b.plain before = Sentence.plainAll before b.sentences ∧
      b.brackets = Sentence.bracketsAll b.sentences := by
  induction b generalizing before with
  | done => exact ⟨rfl, rfl⟩
  | dot rest ih => exact ih before
  | last sentence => exact ⟨(List.append_nil _).symm, (Nat.add_zero _).symm⟩
  | more sentence rest ih =>
    obtain ⟨hplain, hbrackets⟩ := ih (before + sentence.brackets)
    exact ⟨congrArg _ hplain, congrArg _ hbrackets⟩

theorem Block.plain_ofPlain (before : Nat) (ss : List Plain) : (ofPlain ss).plain before = ss := by
  induction ss with
  | nil => rfl
  | cons s rest ih => exact congrArg (s :: ·) ih

/-- A sentence of groups in a formula, and the same one by one. -/
theorem Block.plain_groups (before : Nat) {b b' : Block} {l r : List Sentence} {subject : Written}
    {g : Group} {gs : List Group} (hb : b.sentences = l ++ .said subject (.ofGroups g gs) :: r)
    (hb' : b'.sentences = l ++ ((g :: gs).flatMap (Group.plain subject)).map Plain.sentence ++ r) :
    b.plain before = b'.plain before ∧ b.brackets = b'.brackets := by
  have hgroups := Properties.plain_ofGroups subject (before + Sentence.bracketsAll l) g gs
  have hone := Sentence.plainAll_plain (before + Sentence.bracketsAll l)
    ((g :: gs).flatMap (Group.plain subject))
  rw [(b.plain_eq before).1, (b'.plain_eq before).1, (b.plain_eq before).2, (b'.plain_eq before).2,
    hb, hb']
  constructor
  · rw [List.append_assoc, Sentence.plainAll_append, Sentence.plainAll_append,
      Sentence.plainAll_append, hone.1, hone.2, Sentence.plainAll, Sentence.plain, hgroups.2,
      Sentence.brackets, hgroups.1]
  · rw [Sentence.bracketsAll_append, Sentence.bracketsAll_append, Sentence.bracketsAll_append, hone.2,
      Sentence.bracketsAll, Sentence.brackets, hgroups.1, Nat.zero_add, Nat.add_zero]

namespace Document

theorem plain_append (before : Nat) (d d' : Document) :
    plain before (d ++ d') = d.plain before ++ d'.plain (before + d.brackets) := by
  induction d generalizing before with
  | nil => rfl
  | cons s rest ih =>
    rw [List.cons_append, plain, plain, ih, List.append_assoc, brackets, Nat.add_assoc]

/-- Statements one by one are as they are written out. -/
theorem plain_facts (before : Nat) (ss : List Plain) :
    plain before (ss.map fun s => .facts s.sentence) = (ss.map fun s => .facts s.sentence) ∧
      brackets (ss.map fun s => .facts s.sentence) = 0 := by
  induction ss with
  | nil => exact ⟨rfl, rfl⟩
  | cons s rest ih =>
    refine ⟨congrArg (Statement.facts s.sentence :: ·) ih.1, ?_⟩
    rw [List.map_cons, brackets, ih.2]
    rfl

theorem plain_plain (d : Document) (before before' : Nat) :
    (d.plain before).plain before' = d.plain before := by
  induction d generalizing before before' with
  | nil => rfl
  | cons s rest ih =>
    have hone : plain before' (s.plain before) = s.plain before := by
      cases s with
      | declare | base => rfl
      | rule first arrow second =>
        rw [Statement.plain, plain, Statement.plain, Block.plain_ofPlain, Block.plain_ofPlain]
        rfl
      | facts sentence => exact (plain_facts before' (sentence.plain before)).1
    rw [plain, plain_append, hone, ih]

/-- A statement in the place of another. -/
theorem plain_congr {s s' : Statement} (d₁ d₂ : Document) (before : Nat)
    (h : ∀ k, s.plain k = s'.plain k) (hbrackets : s.brackets = s'.brackets) :
    plain before (d₁ ++ s :: d₂) = plain before (d₁ ++ s' :: d₂) := by
  rw [plain_append, plain_append, plain, plain, h, hbrackets]

/-- A statement of groups, and the same one by one. -/
theorem plain_groups (d₁ d₂ : Document) (before : Nat) (subject : Written) (g : Group)
    (gs : List Group) : plain before (d₁ ++ .facts (.said subject (.ofGroups g gs)) :: d₂) =
      plain before (d₁ ++ (((g :: gs).flatMap (Group.plain subject)).map fun s =>
        .facts s.sentence) ++ d₂) := by
  have hgroups := Properties.plain_ofGroups subject (before + d₁.brackets) g gs
  have hone := plain_facts (before + d₁.brackets) ((g :: gs).flatMap (Group.plain subject))
  rw [List.append_assoc, plain_append, plain_append, plain_append, hone.1, hone.2, plain,
    Statement.plain, Sentence.plain, hgroups.2, Statement.brackets, Sentence.brackets, hgroups.1]

end Document

/-- **Abbreviations are shorthand.** Whatever is written in front and behind: a subject with groups
of verbs and objects, with as many semicolons as one likes behind each group, is parsed like its
statements one by one, and so it is in either formula of a rule. Brackets are parsed like their
labels, with what they state written out before the statement that refers to them; the labels of two
brackets are never the same, and they are those of no other node if and only if no label `gen1`,
`gen2` and so on, up to the number of brackets, is written. -/
theorem parseWith_abbreviations (prefixes : SortedMap String String) :
    (∀ (d₁ d₂ : Document) (subject : Written) (g : Group) (gs : List Group) (text text' : String),
      Document.WrittenAs (d₁ ++ .facts (.said subject (.ofGroups g gs)) :: d₂) text →
      Document.WrittenAs (d₁ ++ (((g :: gs).flatMap (Group.plain subject)).map fun s =>
        .facts s.sentence) ++ d₂) text' →
      Alike (parseWith prefixes text) (parseWith prefixes text')) ∧
    (∀ (d₁ d₂ : Document) (b b' other : Block) (arrow : Arrow) (l r : List Sentence)
        (subject : Written) (g : Group) (gs : List Group) (text text' : String),
      b.sentences = l ++ .said subject (.ofGroups g gs) :: r →
      b'.sentences = l ++ ((g :: gs).flatMap (Group.plain subject)).map Plain.sentence ++ r →
      (Document.WrittenAs (d₁ ++ .rule b arrow other :: d₂) text →
        Document.WrittenAs (d₁ ++ .rule b' arrow other :: d₂) text' →
        Alike (parseWith prefixes text) (parseWith prefixes text')) ∧
      (Document.WrittenAs (d₁ ++ .rule other arrow b :: d₂) text →
        Document.WrittenAs (d₁ ++ .rule other arrow b' :: d₂) text' →
        Alike (parseWith prefixes text) (parseWith prefixes text'))) ∧
    (∀ (d : Document) (text text' : String), d.WrittenAs text → (d.plain 0).WrittenAs text' →
      Alike (parseWith prefixes text) (parseWith prefixes text')) ∧
    (∀ (subject : Written) (verb : Verb) (p : Properties) (before : Nat),
      let stated := p.plain (bracketWritten before) (before + 1) ++
        [⟨subject, verb, bracketWritten before⟩]
      (Objects.one (.bracket (.stating p))).plain subject verb before = stated ∧
        ∀ rest : Objects, (Objects.more (.bracket (.stating p)) rest).plain subject verb before =
          stated ++ rest.plain subject verb (before + (1 + p.brackets))) ∧
    ∀ d : Document, ((d.numbers 0).map bracketNode).Nodup ∧
      (d.BracketsFresh ↔
        ∀ number < d.tokens.count .lbracket, .blankLabel (bracketLabel number) ∉ d.tokens) := by
  refine ⟨fun d₁ d₂ subject g gs text text' h h' => ?_, fun d₁ d₂ b b' other arrow l r subject g gs
    text text' hb hb' => ⟨fun h h' => ?_, fun h h' => ?_⟩, fun d text text' h h' => ?_,
    fun subject verb p before => ⟨rfl, fun _ => rfl⟩,
    fun d => ⟨d.nodup_bracketNodes, d.bracketsFresh_iff⟩⟩
  · exact Document.alike_of_plain prefixes h h' (Document.plain_groups d₁ d₂ 0 subject g gs)
  · refine Document.alike_of_plain prefixes h h' (Document.plain_congr d₁ d₂ 0 (fun k => ?_) ?_)
    · obtain ⟨hplain, hbrackets⟩ := Block.plain_groups k hb hb'
      rw [Statement.plain, Statement.plain, hplain, hbrackets]
    · rw [Statement.brackets, Statement.brackets, (Block.plain_groups 0 hb hb').2]
  · refine Document.alike_of_plain prefixes h h' (Document.plain_congr d₁ d₂ 0 (fun k => ?_) ?_)
    · rw [Statement.plain, Statement.plain, (Block.plain_groups (k + other.brackets) hb hb').1]
    · rw [Statement.brackets, Statement.brackets, (Block.plain_groups 0 hb hb').2]
  · exact Document.alike_of_plain prefixes h h' (d.plain_plain 0 0).symm

/-- An IRI as it is written. -/
def iriWritten (iri : String) : Written := .reference (.full iri)

/-- What a single verb says of a single object. -/
def stating (verb object : String) : Properties :=
  .last (.term (iriWritten verb)) (.one (.term (iriWritten object))) 0

/-- An object that is a bracket. -/
def bracketDocument : Document :=
  [.facts (.said (iriWritten "s") (.last (.term (iriWritten "p"))
    (.one (.bracket (.stating (stating "q" "o")))) 0))]

/-- Two objects and two verbs, with more semicolons than needed; and a bracket as an object. -/
theorem parseWith_abbreviations_of_groups :
    Alike (parseWith ∅ "<s> <p> <a> , <b> ; ; a <c> ; ; .")
      (parseWith ∅ "<s> <p> <a> . <s> <p> <b> . <s> a <c> .") ∧
    (parse "<s> <p> <a> , <b> ; ; a <c> ; ; .").toOption.map (·.facts.length) = some 3 ∧
    Alike (parseWith ∅ "<s> <p> [ <q> <o> ] .")
      (parseWith ∅ "_:gen1 <q> <o> . <s> <p> _:gen1 .") := by
  obtain ⟨hfacts, -, hbracket, -⟩ := parseWith_abbreviations ∅
  have hgroups := hfacts [] [] (iriWritten "s")
    ⟨.term (iriWritten "p"), iriWritten "a", [iriWritten "b"], 1⟩ [⟨.a, iriWritten "c", [], 2⟩]
  refine ⟨hgroups _ _ (Document.writtenAs_iff.mpr ?_) (Document.writtenAs_iff.mpr ?_),
    by decide +kernel, hbracket bracketDocument _ _ (Document.writtenAs_iff.mpr ?_)
      (Document.writtenAs_iff.mpr ?_)⟩
  · decide +kernel
  · decide +kernel
  · decide +kernel
  · decide +kernel

/-- A bracket as an object, and its label as the next subject. -/
def mergedText : String := "<s> <v> [ <p> <o> ] . _:gen1 <q> <r> ."

def mergedDocument : Document :=
  [.facts (.said (iriWritten "s") (.last (.term (iriWritten "v"))
    (.one (.bracket (.stating (stating "p" "o")))) 0)),
    .facts (.said (.blank "gen1") (stating "q" "r"))]

/-- The node that the list is about is not fresh. -/
theorem bracket_merged : mergedDocument.WrittenAs mergedText ∧ ¬ mergedDocument.BracketsFresh ∧
    (parse mergedText).toOption.map (·.facts) = some [⟨.blank "gen1", .iri "p", .iri "o"⟩,
      ⟨.iri "s", .iri "v", .blank "gen1"⟩, ⟨.blank "gen1", .iri "q", .iri "r"⟩] := by
  refine ⟨Document.writtenAs_iff.mpr (by decide +kernel), fun h => ?_, by decide +kernel⟩
  exact h.2 0 (by decide) "gen1" (by decide) rfl

end HornReasoner.N3
