import HornReasoner.Proofs.N3.Lexing
import HornReasoner.Proofs.Rule.Atoms

/-! Printed triples and rules are read back.

A printed term is one to three tokens, which are those of a written term that means it
(`Term.written_value`). So a printed triple is a sentence, and a printed rule is a formula
statement; the parser reads them. -/
namespace HornReasoner
open N3

/-! ### Terms -/

/-- The texts inside the term are such that its tokens can be told from what is around them. -/
def Term.Printable : Term → Prop
  | .iri s => IsIri s.toList
  | .literal l =>
    '\n' ∉ l.lexical.toList ∧ (l.language = none ∨ l.datatype = none) ∧
      (∀ tag ∈ l.language, IsTag tag.toList ∧ tag ≠ "prefix" ∧ tag ≠ "base") ∧
      ∀ s ∈ l.datatype, IsIri s.toList
  | .blank label => IsLabel label.toList
  | .var v => IsVariableName v.name.toList

/-- What is written between the quotes. -/
def Literal.body (l : Literal) : String := String.ofList (escape l.lexical.toList)

/-- The term as it is printed. -/
def Term.written : Term → Written
  | .iri s => .reference (.full s)
  | .literal l =>
    match l.language, l.datatype with
    | some tag, _ => .tagged l.body tag
    | none, some s => .typed l.body (.full s)
    | none, none => .plain l.body
  | .blank label => .blank label
  | .var v => .var v.name

theorem Literal.lexicalForm_body (l : Literal) : lexicalForm l.body = l.lexical := by
  rw [lexicalForm, body, String.toList_ofList, unescape_escape, String.ofList_toList]

namespace Term
variable {t : Term}

theorem written_value (prefixes : SortedMap String String) (h : t.Printable) :
    t.written.value ⟨prefixes, none⟩ = t := by
  cases t with
  | iri | blank | var => rfl
  | literal l =>
    obtain ⟨_, hone, _⟩ := h
    have hbody := l.lexicalForm_body
    obtain ⟨lexical, datatype, language⟩ := l
    rcases language with _ | tag <;> rcases datatype with _ | iri
    · exact congrArg (literal ⟨·, none, none⟩) hbody
    · exact congrArg (literal ⟨·, some iri, none⟩) hbody
    · exact congrArg (literal ⟨·, none, some tag⟩) hbody
    · cases hone <;> contradiction

theorem declares_written (scope : Scope) (t : Term) : scope.Declares t.written.tokens := by
  apply Scope.declares_of_no_name
  cases t with
  | iri | blank | var => simp [written, Written.tokens, Reference.token, Token.isName]
  | literal l =>
    obtain ⟨lexical, datatype, language⟩ := l
    rcases language with _ | tag <;> rcases datatype with _ | iri <;>
      simp [written, Written.tokens, Reference.token, Token.isName]

/-- A term is printed as its tokens. A blank has to stand behind it. -/
theorem lexes_render {c : Char} {rest : List Char} {ts : List Token} (h : t.Printable)
    (hc : N3.isBlank c = true) (hrest : Lexes (c :: rest) ts) :
    Lexes (t.render.toList ++ c :: rest) (t.written.tokens ++ ts) := by
  have hstops : Stops isNamePart (c :: rest) := .cons (isNamePart_of_isBlank hc)
  cases t with
  | iri iri =>
    show Lexes _ (.iriRef iri :: ts)
    simpa [render, String.toList_append] using Lexes.iri h hrest
  | blank label =>
    show Lexes _ (.blankLabel label :: ts)
    simpa [render, String.toList_append] using Lexes.label h hstops hrest
  | var v =>
    show Lexes _ (.var v.name :: ts)
    have hstart : Stops isNameStart (c :: rest) := hstops.mono fun d hd => by simp [isNamePart, hd]
    simpa [render, Variable.render, String.toList_append] using Lexes.var h hstart hrest
  | literal l =>
    obtain ⟨hline, _, htag, hiri⟩ := h
    obtain ⟨lexical, datatype, language⟩ := l
    rcases language with _ | tag
    · rcases datatype with _ | iri
      · show Lexes _ (.string _ :: ts)
        simpa [render, Literal.render, Literal.body, String.toList_append] using Lexes.string hline hrest
      · have hmark : Lexes ('^' :: '^' :: ('<' :: iri.toList ++ '>' :: c :: rest))
            (.doubleCaret :: .iriRef iri :: ts) :=
          (Lexes.iri (hiri iri rfl) hrest).token ['^'] rfl
        show Lexes _ (.string _ :: .doubleCaret :: .iriRef iri :: ts)
        simpa [render, Literal.render, Literal.body, String.toList_append] using Lexes.string hline hmark
    · obtain ⟨htag, hdirective, hbase⟩ := htag tag rfl
      have hpart : Stops isTagPart (c :: rest) := hstops.mono fun d hd => by
        rw [isTagPart, Bool.or_eq_true] at hd
        rw [isNamePart, isNameStart, Bool.or_eq_true, Bool.or_eq_true]
        exact hd.imp_left .inl
      show Lexes _ (.string _ :: .langTag tag :: ts)
      simpa [render, Literal.render, Literal.body, String.toList_append] using
        Lexes.string hline (Lexes.tag htag hdirective hbase hpart hrest)

end Term

/-! ### Triples -/

namespace Triple

def Printable (t : Triple) : Prop := ∀ u ∈ t.terms, u.Printable

/-- The triple as it is printed. -/
def sentence (t : Triple) : Sentence :=
  .said t.subject.written (.last (.term t.predicate.written) (.one (.term t.object.written)) 0)

variable {t : Triple}

theorem tokens_sentence (t : Triple) : t.sentence.tokens =
    t.subject.written.tokens ++ (t.predicate.written.tokens ++ t.object.written.tokens) := by
  simp [sentence, Sentence.tokens, Properties.tokens, Objects.tokens, Object.tokens, Verb.tokens]

theorem declares_sentence (scope : Scope) (t : Triple) : scope.Declares t.sentence.tokens := by
  simp only [tokens_sentence, Scope.declares_append]
  exact ⟨Term.declares_written _ _, Term.declares_written _ _, Term.declares_written _ _⟩

theorem triples_sentence (prefixes : SortedMap String String) (before : Nat) (h : t.Printable) :
    t.sentence.triples ⟨prefixes, none⟩ before = [t] := by
  obtain ⟨subject, predicate, object⟩ := t
  simp only [Printable, terms, List.mem_cons, List.not_mem_nil, or_false, forall_eq_or_imp,
    forall_eq] at h
  simp [sentence, Sentence.triples, Properties.triples, Objects.triples, Object.inner, Object.node,
    Verb.value, Term.written_value prefixes h.1, Term.written_value prefixes h.2.1,
    Term.written_value prefixes h.2.2]

/-- A triple is printed as its tokens. -/
theorem lexes_renderBare {c : Char} {rest : List Char} {ts : List Token} (h : t.Printable)
    (hc : isBlank c = true) (hrest : Lexes (c :: rest) ts) :
    Lexes (t.renderBare.toList ++ c :: rest) (t.sentence.tokens ++ ts) := by
  have hspace : isBlank ' ' = true := rfl
  simp only [Printable, terms, List.mem_cons, List.not_mem_nil, or_false, forall_eq_or_imp,
    forall_eq] at h
  have hobject := Term.lexes_render h.2.2 hc hrest
  have hpredicate := Term.lexes_render h.2.1 hspace (hobject.blank hspace)
  have hsubject := Term.lexes_render h.1 hspace (hpredicate.blank hspace)
  rw [tokens_sentence]
  simpa [renderBare, String.toList_append] using hsubject

/-- With its dot. -/
theorem lexes_render {rest : List Char} {ts : List Token} (h : t.Printable)
    (hrest : Lexes rest ts) :
    Lexes (t.render.toList ++ rest) ((Statement.facts t.sentence).tokens ++ ts) := by
  have hdot : Lexes ('.' :: rest) (.dot :: ts) := hrest.token [] rfl
  have hbare := lexes_renderBare h (c := ' ') rfl (hdot.blank rfl)
  simpa [render, Statement.tokens, String.toList_append] using hbare

end Triple

/-! ### Documents -/

/-- Triples as they are printed, one on each line. -/
def factDocument (ts : List Triple) : Document := ts.map fun t => .facts t.sentence

theorem tokens_factDocument_cons (t : Triple) (rest : List Triple) :
    (factDocument (t :: rest)).tokens =
      (Statement.facts t.sentence).tokens ++ (factDocument rest).tokens :=
  List.flatMap_cons

theorem lexes_factDocument {ts : List Triple} (h : ∀ t ∈ ts, t.Printable) :
    Lexes ("\n".intercalate (ts.map Triple.render)).toList (factDocument ts).tokens := by
  induction ts with
  | nil => exact .nil
  | cons t rest ih =>
    obtain ⟨ht, hrest⟩ := List.forall_mem_cons.mp h
    cases rest with
    | nil =>
      rw [tokens_factDocument_cons]
      simpa [String.intercalate_singleton, factDocument, Document.tokens] using
        Triple.lexes_render ht .nil
    | cons u rest =>
      have hnext := Triple.lexes_render ht (.blank (c := '\n') rfl (ih hrest))
      rw [tokens_factDocument_cons, List.map_cons, List.map_cons, String.intercalate_cons_cons]
      simpa [String.toList_append] using hnext

theorem admissible_factDocument {ts : List Triple} (scope : Scope) (hbase : scope.base = none)
    (h : ∀ t ∈ ts, t.hasVariables = false ∧ t.Printable) (before : Nat) :
    (factDocument ts).Admissible scope before := by
  induction ts generalizing before with
  | nil => trivial
  | cons t rest ih =>
    obtain ⟨⟨hground, ht⟩, hrest⟩ := List.forall_mem_cons.mp h
    refine ⟨⟨Triple.declares_sentence _ t, ?_⟩, ih hrest _⟩
    obtain ⟨prefixes, base⟩ := scope
    cases hbase
    rw [Triple.triples_sentence prefixes before ht]
    simpa using hground

theorem ruleset_factDocument {ts : List Triple} (prefixes : SortedMap String String)
    (h : ∀ t ∈ ts, t.Printable) (before : Nat) (places : List Position) :
    (factDocument ts).ruleset ⟨prefixes, none⟩ before places = { prefixes, facts := ts } := by
  induction ts generalizing before places with
  | nil => rfl
  | cons t rest ih =>
    obtain ⟨ht, hrest⟩ := List.forall_mem_cons.mp h
    rw [factDocument, List.map_cons, Document.ruleset]
    have ih := ih hrest (before + (Statement.facts t.sentence).brackets)
      (places.drop (Statement.facts t.sentence).tokens.length)
    rw [factDocument] at ih
    simp only [Statement.scope, ih, Statement.triples, Triple.triples_sentence prefixes before ht]
    rfl

/-! ### Rules -/

/-- A side of a rule as it is printed. -/
def sideBlock : List Triple → Block
  | [] => .done
  | [t] => .last t.sentence
  | t :: rest => .more t.sentence (sideBlock rest)

theorem declares_sideBlock (scope : Scope) (ts : List Triple) :
    scope.Declares (sideBlock ts).formula := by
  have hinner : scope.Declares (sideBlock ts).tokens := by
    fun_induction sideBlock ts with
    | case1 => exact Scope.declares_nil
    | case2 t => exact t.declares_sentence scope
    | case3 t rest _ ih =>
      rw [Block.tokens, Scope.declares_append, Scope.declares_cons]
      exact ⟨t.declares_sentence scope, Scope.declares_token rfl, ih⟩
  rw [Block.formula, List.cons_append, Scope.declares_cons, Scope.declares_append]
  exact ⟨Scope.declares_token rfl, hinner, Scope.declares_token rfl⟩

theorem triples_sideBlock (prefixes : SortedMap String String) {ts : List Triple}
    (h : ∀ t ∈ ts, t.Printable) (before : Nat) :
    (sideBlock ts).triples ⟨prefixes, none⟩ before = ts := by
  fun_induction sideBlock ts generalizing before with
  | case1 => rfl
  | case2 t => exact Triple.triples_sentence prefixes before (h t List.mem_cons_self)
  | case3 t rest _ ih =>
    obtain ⟨ht, hrest⟩ := List.forall_mem_cons.mp h
    rw [Block.triples, Triple.triples_sentence prefixes before ht, ih hrest]
    rfl

theorem lexes_sideBlock {ts : List Triple} {rest : List Char} {tokens : List Token}
    (h : ∀ t ∈ ts, t.Printable) (hrest : Lexes rest tokens) :
    Lexes ((HornRule.renderSide ts).toList ++ rest) ((sideBlock ts).formula ++ tokens) := by
  have hclose : Lexes (' ' :: '\x7d' :: rest) (.rbrace :: tokens) :=
    .blank rfl (hrest.token [] rfl)
  have hinner : Lexes ((" . ".intercalate (ts.map Triple.renderBare)).toList ++ ' ' :: '\x7d' :: rest)
      ((sideBlock ts).tokens ++ .rbrace :: tokens) := by
    fun_induction sideBlock ts with
    | case1 => simpa [Block.tokens] using hclose
    | case2 t =>
      simpa [String.intercalate_singleton, Block.tokens] using
        Triple.lexes_renderBare (h t List.mem_cons_self) rfl hclose
    | case3 t others hne ih =>
      obtain ⟨ht, hothers⟩ := List.forall_mem_cons.mp h
      obtain ⟨u, more, rfl⟩ := List.exists_cons_of_ne_nil hne
      have hdot : Lexes ('.' :: ' ' :: _) (.dot :: _) :=
        ((ih hothers).blank (c := ' ') rfl).token [] rfl
      have hnext := Triple.lexes_renderBare ht (c := ' ') rfl (hdot.blank rfl)
      rw [List.map_cons, List.map_cons, String.intercalate_cons_cons]
      simpa [Block.tokens, String.toList_append] using hnext
  have hopen := (hinner.blank (c := ' ') rfl).token (c := '\x7b') (t := .lbrace) [] rfl
  simpa [HornRule.renderSide, Block.formula, String.toList_append] using hopen

/-- A rule as it is printed. -/
def HornRule.document (r : HornRule) : Document :=
  [.rule (sideBlock r.body) .implies (sideBlock r.head)]

theorem HornRule.lexes_render {r : HornRule} (h : ∀ t ∈ r.body ++ r.head, t.Printable) :
    Lexes (r.render ++ " .").toList r.document.tokens := by
  have hbody (t : Triple) (ht : t ∈ r.body) := h t (List.mem_append_left _ ht)
  have hhead (t : Triple) (ht : t ∈ r.head) := h t (List.mem_append_right _ ht)
  have hdot : Lexes [' ', '.'] [.dot] := .blank rfl (Lexes.nil.token [] rfl)
  have hsecond := lexes_sideBlock hhead hdot
  have harrow : Lexes ('=' :: '>' :: ' ' :: _) (.implies :: _) :=
    (hsecond.blank (c := ' ') rfl).token ['>'] rfl
  have hfirst := lexes_sideBlock hbody (harrow.blank (c := ' ') rfl)
  simpa [render, document, Document.tokens, Statement.tokens, Arrow.tokens, String.toList_append]
    using hfirst

theorem HornRule.ruleset_document {r : HornRule} (hbuilt : r.Built)
    (h : ∀ t ∈ r.body ++ r.head, t.Printable) (places : List Position) :
    r.document.ruleset ⟨∅, none⟩ 0 places =
      { rules := [{ r with label := Read.ruleLabel (places.headD {}) }] } := by
  have hbody := triples_sideBlock ∅ (fun t ht => h t (List.mem_append_left _ ht)) 0
  have hhead := triples_sideBlock ∅ (fun t ht => h t (List.mem_append_right _ ht))
    (0 + (sideBlock r.body).brackets)
  simp only [document, Document.ruleset, Statement.rules, Statement.triples, Statement.scope, hbody,
    hhead]
  show Ruleset.mk ∅ ([ofAtoms (Read.ruleLabel (places.headD {})) r.body r.head] ++ []) ([] ++ []) = _
  rw [hbuilt.ofAtoms_eq]
  rfl

theorem HornRule.admissible_document (r : HornRule) (scope : Scope) (before : Nat) :
    r.document.Admissible scope before := by
  refine ⟨⟨?_, trivial⟩, trivial⟩
  simp only [Statement.tokens, Arrow.tokens, Scope.declares_append]
  exact ⟨⟨⟨declares_sideBlock scope r.body, Scope.declares_token rfl⟩,
    declares_sideBlock scope r.head⟩, Scope.declares_token rfl⟩

/-- What is printed is read back: triples without variables as facts, and a rule without blank
nodes, but for its label. -/
theorem parse_render :
    (∀ ts : List Triple, (∀ t ∈ ts, t.hasVariables = false ∧ t.Printable) →
      parse ("\n".intercalate (ts.map Triple.render)) = .ok { facts := ts }) ∧
    ∀ (label : String) (body head : List Triple),
      (∀ t ∈ (HornRule.ofAtoms label body head).body ++ (HornRule.ofAtoms label body head).head,
        t.Printable) →
      ∃ label', parse ((HornRule.ofAtoms label body head).render ++ " .") =
        .ok { rules := [{ HornRule.ofAtoms label body head with label := label' }] } := by
  constructor
  · intro ts h
    have hprintable (t : Triple) (ht : t ∈ ts) : t.Printable := (h t ht).2
    obtain ⟨places, hparse⟩ := parse_of_lexes (lexes_factDocument hprintable)
      (admissible_factDocument _ rfl h 0)
    rw [hparse, ruleset_factDocument ∅ hprintable]
  · intro label body head h
    obtain ⟨places, hparse⟩ := parse_of_lexes (HornRule.lexes_render h)
      (HornRule.admissible_document _ _ 0)
    exact ⟨_, by rw [hparse, HornRule.ruleset_document ⟨label, body, head, rfl⟩ h]⟩

/-- A literal with a quote, a comment sign and a backslash. -/
def awkward : Term := .literal (.tagged "\"#\\" "en-GB")

theorem awkward_printable : awkward.Printable := by
  refine ⟨by decide, .inr rfl, ?_, by simp [Literal.tagged]⟩
  rintro _ ⟨⟩
  have hfirst : ∀ c ∈ ['e', 'n'], c.isAlpha = true :=
    List.forall_mem_cons.mpr ⟨rfl, List.forall_mem_singleton.mpr rfl⟩
  have hpart : ∀ c ∈ ['G', 'B'], c.isAlphanum = true :=
    List.forall_mem_cons.mpr ⟨rfl, List.forall_mem_singleton.mpr rfl⟩
  refine ⟨⟨['e', 'n'], [['G', 'B']], rfl, ⟨by simp, hfirst⟩, ?_⟩, by decide, by decide⟩
  exact List.forall_mem_singleton.mpr ⟨by simp, hpart⟩

/-- A fact and a rule with this literal; the property is the first half of an arrow. -/
theorem parse_render_awkward :
    parse ("\n".intercalate ([⟨.iri "=", awkward, .blank "_1"⟩].map Triple.render)) =
      .ok { facts := [⟨.iri "=", awkward, .blank "_1"⟩] } ∧
    ∃ label, parse ((HornRule.ofAtoms "" [⟨.var ⟨"x"⟩, .iri "=", awkward⟩]
        [⟨.var ⟨"y"⟩, .iri "=", .var ⟨"x"⟩⟩]).render ++ " .") =
      .ok { rules := [⟨label, [⟨.var ⟨"x"⟩, .iri "=", awkward⟩],
        [⟨.var ⟨"y"⟩, .iri "=", .var ⟨"x"⟩⟩], [⟨"y"⟩]⟩] } := by
  obtain ⟨hfacts, hrules⟩ := parse_render
  have hequals : (Term.iri "=").Printable := List.forall_mem_singleton.mpr rfl
  have hlabel : (Term.blank "_1").Printable :=
    ⟨'_', ['1'], rfl, rfl, List.forall_mem_singleton.mpr rfl⟩
  have hx : (Term.var ⟨"x"⟩).Printable := ⟨'x', [], rfl, rfl, List.forall_mem_nil _⟩
  have hy : (Term.var ⟨"y"⟩).Printable := ⟨'y', [], rfl, rfl, List.forall_mem_nil _⟩
  have hbody : (⟨.var ⟨"x"⟩, .iri "=", awkward⟩ : Triple).Printable := by
    simp [Triple.Printable, Triple.terms, hx, hequals, awkward_printable]
  have hhead : (⟨.var ⟨"y"⟩, .iri "=", .var ⟨"x"⟩⟩ : Triple).Printable := by
    simp [Triple.Printable, Triple.terms, hx, hy, hequals]
  refine ⟨hfacts _ (List.forall_mem_singleton.mpr ⟨rfl, ?_⟩), hrules "" _ _ ?_⟩
  · simp [Triple.Printable, Triple.terms, hequals, awkward_printable, hlabel]
  · exact List.forall_mem_cons.mpr ⟨hbody, List.forall_mem_singleton.mpr hhead⟩

end HornReasoner
