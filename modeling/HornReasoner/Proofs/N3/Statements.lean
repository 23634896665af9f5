import HornReasoner.Proofs.N3.Reading

/-! Documents are read.

From the phrases on to sentences, formulas, statements and whole documents: a document whose statements
are admissible is read to its end, and what is read is what it says (`parseTokens_of_document`). -/
namespace HornReasoner.N3

/-! ### Sentences -/

/-- A sentence ends before such a token. -/
def EndsSentence (following : List Token) : Prop :=
  ∃ t rest, following = t :: rest ∧ (t = .dot ∨ t = .rbrace)

theorem EndsSentence.closes {following : List Token} (h : EndsSentence following) :
    Closes following := by
  obtain ⟨t, rest, rfl, rfl | rfl⟩ := h <;> exact ⟨_, _, rfl, rfl⟩

theorem Properties.length_pos (p : Properties) : 0 < p.tokens.length := by
  obtain ⟨v, rest, htokens⟩ := p.starts_with_verb
  have := v.length_pos
  rw [htokens, List.length_append]
  omega

/-- A sentence starts with such a token. -/
def Token.startsSentence : Token → Bool
  | lbracket => true
  | t => t.startsTerm

theorem Token.ne_of_startsSentence {t u : Token} (h : t.startsSentence = true)
    (hu : u.startsSentence = false) : t ≠ u := fun heq => by
  rw [heq, hu] at h
  cases h

/-- A sentence starts with a term or a bracket. -/
theorem Sentence.tokens_eq (sentence : Sentence) :
    ∃ t rest, sentence.tokens = t :: rest ∧ t.startsSentence = true := by
  cases sentence with
  | said w p =>
    obtain ⟨t, rest, htokens, hstart⟩ := w.tokens_eq
    refine ⟨t, rest ++ p.tokens, by rw [Sentence.tokens, htokens, List.cons_append], ?_⟩
    cases t <;> first | rfl | cases hstart
  | bracket b =>
    obtain ⟨rest, htokens⟩ := b.tokens_eq
    exact ⟨_, rest, htokens, rfl⟩
  | bracketSaid b p =>
    obtain ⟨rest, htokens⟩ := b.tokens_eq
    exact ⟨_, rest ++ p.tokens, by rw [Sentence.tokens, htokens, List.cons_append], rfl⟩

/-- The first token of a sentence, whatever follows it. -/
theorem Sentence.head?_eq (sentence : Sentence) :
    ∃ t, t.startsSentence = true ∧ ∀ following, (sentence.tokens ++ following).head? = some t := by
  obtain ⟨t, rest, htokens, hstart⟩ := sentence.tokens_eq
  exact ⟨t, hstart, fun following => by rw [htokens, List.cons_append, List.head?_cons]⟩

theorem Sentence.length_pos (sentence : Sentence) : 0 < sentence.tokens.length := by
  obtain ⟨t, rest, htokens, _⟩ := sentence.tokens_eq
  rw [htokens]
  exact Nat.zero_lt_succ _

/-- The place of the next token. -/
def State.place (s : State) : Position := (s.rest.map Prod.snd).headD {}

namespace Read
variable {s : State} {fuel : Nat} {following : List Token}

theorem triples_reads (sentence : Sentence) (fuel : Nat) (hfuel : 2 * sentence.tokens.length ≤ fuel)
    (h : s.ahead = sentence.tokens ++ following) (hend : EndsSentence following)
    (hd : s.scope.Declares sentence.tokens) :
    ∃ s', triples fuel s = .ok (sentence.triples s.scope s.blanks, s') ∧
      Took sentence.tokens sentence.brackets s s' := by
  cases sentence with
  | said w p =>
    have hp := p.length_pos
    simp only [Sentence.tokens, List.length_append] at hfuel
    simp only [Sentence.tokens, List.append_assoc] at h
    simp only [Sentence.tokens, Scope.declares_append] at hd
    obtain ⟨t, rest, htokens, hstart⟩ := w.tokens_eq
    obtain ⟨s₁, hterm, htook₁⟩ := term_reads w fuel (by omega) h (p.noSuffix _) hd.1
    obtain ⟨s₂, hsaid, htook₂⟩ := properties_reads p fuel (w.value s.scope) (by omega)
      (htook₁.ahead_eq h) hend.closes (htook₁.scope ▸ hd.2)
    refine ⟨s₂, ?_, by simpa [Sentence.tokens, Sentence.brackets] using htook₁.trans htook₂⟩
    have hne : s.ahead.head? ≠ some .lbracket := by
      rw [h, htokens]
      rintro ⟨⟩
      cases hstart
    rw [triples, peek_bind, if_neg hne, bind_of_ok hterm, hsaid, htook₁.scope, htook₁.blanks]
    rfl
  | bracket b =>
    simp only [Sentence.tokens] at hfuel h hd
    obtain ⟨rest, htokens⟩ := b.tokens_eq
    obtain ⟨s₁, hbracket, htook⟩ := bracket_reads b fuel (by omega) h hd
    refine ⟨s₁, ?_, htook⟩
    rw [triples, peek_bind, if_pos (by rw [h, htokens]; rfl), bind_of_ok hbracket]
    show (peek >>= _) s₁ = _
    rw [peek_bind, htook.ahead_eq h]
    obtain ⟨t, rest, rfl, rfl | rfl⟩ := hend <;> rfl
  | bracketSaid b p =>
    have hp := p.length_pos
    simp only [Sentence.tokens, List.length_append] at hfuel
    simp only [Sentence.tokens, List.append_assoc] at h
    simp only [Sentence.tokens, Scope.declares_append] at hd
    obtain ⟨rest, htokens⟩ := b.tokens_eq
    obtain ⟨s₁, hbracket, htook₁⟩ := bracket_reads b fuel (by omega) h hd.1
    have hahead := htook₁.ahead_eq h
    obtain ⟨s₂, hsaid, htook₂⟩ := properties_reads p fuel (bracketNode s.blanks) (by omega)
      hahead hend.closes (htook₁.scope ▸ hd.2)
    refine ⟨s₂, ?_, htook₁.trans htook₂⟩
    rw [htook₁.scope, htook₁.blanks] at hsaid
    rw [triples, peek_bind, if_pos (by rw [h, htokens]; rfl), bind_of_ok hbracket]
    show (peek >>= _) s₁ = _
    obtain ⟨v, after, hafter⟩ := p.starts_with_verb
    obtain ⟨t, others, hverb, hstart⟩ := v.tokens_eq
    rw [peek_bind, hahead, hafter, hverb]
    have hthen : (properties fuel (bracketNode s.blanks) >>= fun ts =>
        pure (b.triples s.scope s.blanks ++ ts)) s₁ =
        .ok ((Sentence.bracketSaid b p).triples s.scope s.blanks, s₂) := by
      rw [bind_of_ok hsaid]
      rfl
    cases t <;> first | exact hthen | cases hstart

/-! ### Formulas -/

/-- A sentence in a formula and what stands behind it. -/
def sentenceRest (fuel : Nat) : Read (List Triple) := do
  let stated ← triples fuel
  match ← peek with
  | some .dot | some .rbrace => return stated ++ (← formulaRest fuel)
  | found => unexpected .dotOrBrace found

theorem formulaRest_rbrace (h : s.ahead.head? = some .rbrace) :
    formulaRest (fuel + 1) s = (advance >>= fun _ => pure []) s := by
  rw [formulaRest, peek_bind, h]

theorem formulaRest_dot (h : s.ahead.head? = some .dot) :
    formulaRest (fuel + 1) s = (advance >>= fun _ => formulaRest fuel) s := by
  rw [formulaRest, peek_bind, h]

/-- Anything but a brace or a dot begins a sentence. -/
theorem formulaRest_sentence {t : Token} (h : s.ahead.head? = some t) (hbrace : t ≠ .rbrace)
    (hdot : t ≠ .dot) : formulaRest (fuel + 1) s = sentenceRest fuel s := by
  rw [formulaRest, peek_bind, h]
  cases t <;> first | rfl | exact absurd rfl hbrace | exact absurd rfl hdot

theorem sentenceRest_ended {s₁ : State} {stated : List Triple} {t : Token}
    (hstated : triples fuel s = .ok (stated, s₁)) (hnext : s₁.ahead.head? = some t)
    (ht : t = .dot ∨ t = .rbrace) :
    sentenceRest fuel s = (formulaRest fuel >>= fun ts => pure (stated ++ ts)) s₁ := by
  rw [sentenceRest, bind_of_ok hstated, peek_bind, hnext]
  rcases ht with rfl | rfl <;> rfl

theorem formulaRest_reads (b : Block) (fuel : Nat) (hfuel : 2 * b.tokens.length + 1 ≤ fuel)
    (h : s.ahead = b.tokens ++ .rbrace :: following) (hd : s.scope.Declares b.tokens) :
    ∃ s', formulaRest fuel s = .ok (b.triples s.scope s.blanks, s') ∧
      Took (b.tokens ++ [.rbrace]) b.brackets s s' := by
  induction b generalizing s fuel with
  | done =>
    obtain ⟨fuel, rfl⟩ : ∃ f, fuel = f + 1 := ⟨fuel - 1, by omega⟩
    obtain ⟨s₁, hclose, htook⟩ := advance_cons h
    refine ⟨s₁, ?_, htook⟩
    rw [formulaRest_rbrace (by rw [h]; rfl), bind_of_ok hclose]
    rfl
  | dot rest ih =>
    simp only [Block.tokens, List.length_cons] at hfuel
    rw [Block.tokens, Scope.declares_cons] at hd
    obtain ⟨fuel, rfl⟩ : ∃ f, fuel = f + 1 := ⟨fuel - 1, by omega⟩
    obtain ⟨s₁, hdot, htook₁⟩ := advance_cons h
    obtain ⟨s₂, hrest, htook₂⟩ :=
      ih fuel (by omega) (htook₁.ahead_eq h) (htook₁.scope ▸ hd.2)
    refine ⟨s₂, ?_, by simpa [Block.tokens, Block.brackets] using htook₁.trans htook₂⟩
    rw [formulaRest_dot (by rw [h]; rfl), bind_of_ok hdot, hrest, htook₁.scope, htook₁.blanks]
    rfl
  | last sentence =>
    have hpos := sentence.length_pos
    simp only [Block.tokens] at hfuel h hd
    obtain ⟨fuel, rfl⟩ : ∃ f, fuel = f + 1 + 1 := ⟨fuel - 2, by omega⟩
    obtain ⟨s₁, hstated, htook₁⟩ := triples_reads sentence (fuel + 1) (by omega) h
      ⟨_, _, rfl, .inr rfl⟩ hd
    have hahead := htook₁.ahead_eq h
    obtain ⟨s₂, hclose, htook₂⟩ := advance_cons hahead
    refine ⟨s₂, ?_, htook₁.trans htook₂⟩
    have hdone : formulaRest (fuel + 1) s₁ = .ok ([], s₂) := by
      rw [formulaRest_rbrace (by rw [hahead]; rfl), bind_of_ok hclose]
      rfl
    obtain ⟨t, hstart, hhead⟩ := sentence.head?_eq
    rw [formulaRest_sentence (by rw [h, hhead]) (Token.ne_of_startsSentence hstart rfl)
      (Token.ne_of_startsSentence hstart rfl), sentenceRest_ended hstated (by rw [hahead]; rfl) (.inr rfl),
      bind_of_ok hdone, List.append_nil]
    rfl
  | more sentence rest ih =>
    have hpos := sentence.length_pos
    simp only [Block.tokens, List.length_append, List.length_cons] at hfuel
    simp only [Block.tokens, List.append_assoc, List.cons_append] at h
    rw [Block.tokens, Scope.declares_append, Scope.declares_cons] at hd
    obtain ⟨fuel, rfl⟩ : ∃ f, fuel = f + 1 + 1 := ⟨fuel - 2, by omega⟩
    obtain ⟨s₁, hstated, htook₁⟩ := triples_reads sentence (fuel + 1) (by omega) h
      ⟨_, _, rfl, .inl rfl⟩ hd.1
    have hahead := htook₁.ahead_eq h
    obtain ⟨s₂, hdot, htook₂⟩ := advance_cons hahead
    have htook := htook₁.trans htook₂
    rw [Nat.add_zero] at htook
    obtain ⟨s₃, hrest, htook₃⟩ :=
      ih fuel (by omega) (htook₂.ahead_eq hahead) (htook.scope ▸ hd.2.2)
    refine ⟨s₃, ?_, by simpa [Block.tokens, Block.brackets] using htook.trans htook₃⟩
    rw [htook.scope, htook.blanks] at hrest
    have hothers : formulaRest (fuel + 1) s₁ =
        .ok (rest.triples s.scope (s.blanks + sentence.brackets), s₃) := by
      rw [formulaRest_dot (by rw [hahead]; rfl), bind_of_ok hdot, hrest]
    obtain ⟨t, hstart, hhead⟩ := sentence.head?_eq
    rw [formulaRest_sentence (by rw [h, hhead]) (Token.ne_of_startsSentence hstart rfl)
      (Token.ne_of_startsSentence hstart rfl), sentenceRest_ended hstated (by rw [hahead]; rfl) (.inl rfl),
      bind_of_ok hothers]
    rfl

theorem formula_reads (b : Block) (fuel : Nat) (hfuel : 2 * b.formula.length ≤ fuel)
    (h : s.ahead = b.formula ++ following) (hd : s.scope.Declares b.formula) :
    ∃ s', formula fuel s = .ok (b.triples s.scope s.blanks, s') ∧
      Took b.formula b.brackets s s' := by
  simp only [Block.formula, List.length_append, List.length_cons, List.length_nil] at hfuel
  simp only [Block.formula, List.cons_append, List.append_assoc, List.nil_append] at h
  rw [Block.formula, List.cons_append, Scope.declares_cons, Scope.declares_append] at hd
  obtain ⟨s₁, hopen, htook₁⟩ := expect_cons h
  obtain ⟨s₂, hrest, htook₂⟩ := formulaRest_reads b fuel (by omega) (htook₁.ahead_eq h)
    (htook₁.scope ▸ hd.2.1)
  refine ⟨s₂, ?_, by simpa [Block.formula] using htook₁.trans htook₂⟩
  rw [formula, bind_of_ok hopen, hrest, htook₁.scope, htook₁.blanks]
  rfl

/-- A term between formulas. -/
def arrowTerm (fuel : Nat) : Read Bool := do
  let found ← term fuel
  if found ≠ .iri Vocabulary.Swap.logImplies then fail (← here) (.verb found)
  return false

theorem arrow_term (himplies : s.ahead.head? ≠ some .implies)
    (himpliedBy : s.ahead.head? ≠ some .impliedBy) : arrow fuel s = arrowTerm fuel s := by
  rw [arrow, peek_bind]
  cases hnext : s.ahead.head? with
  | none => rfl
  | some t => cases t <;> first | rfl | exact absurd hnext himplies | exact absurd hnext himpliedBy

theorem arrow_reads (a : Arrow) (fuel : Nat) (hfuel : a.tokens.length ≤ fuel)
    (h : s.ahead = a.tokens ++ following) (hnext : NoSuffix following)
    (hd : s.scope.Declares a.tokens) (himplies : a.Implies s.scope) :
    ∃ s', arrow fuel s = .ok (a.reversed, s') ∧ Took a.tokens 0 s s' := by
  cases a with
  | implies | impliedBy =>
    obtain ⟨s₁, hread, htook⟩ := advance_cons h
    refine ⟨s₁, ?_, htook⟩
    rw [arrow, peek_bind, h]
    show (advance >>= _) s = _
    rw [bind_of_ok hread]
    rfl
  | term w =>
    obtain ⟨s₁, hread, htook⟩ := term_reads w fuel hfuel h hnext hd
    refine ⟨s₁, ?_, htook⟩
    obtain ⟨t, rest, htokens, hstart⟩ := w.tokens_eq
    have hhead : s.ahead.head? = some t := by rw [h, Arrow.tokens, htokens]; rfl
    rw [arrow_term (by rw [hhead]; rintro ⟨⟩; cases hstart) (by rw [hhead]; rintro ⟨⟩; cases hstart),
      arrowTerm, bind_of_ok hread, if_neg (fun hne => hne himplies)]
    rfl

theorem iriRef_reads {iri : String} (h : s.ahead = .iriRef iri :: following) :
    ∃ s', iriRef s = .ok (s.scope.resolve iri, s') ∧ Took [.iriRef iri] 0 s s' := by
  obtain ⟨s₁, hread, htook⟩ := advance_cons h
  refine ⟨s₁, ?_, htook⟩
  rw [iriRef, bind_of_ok hread]
  show resolve iri s₁ = _
  rw [resolve_eq, htook.scope]

/-! ### Statements -/

theorem here_eq {t : Token} (h : s.ahead = t :: following) : here s = .ok (s.place, s) := by
  obtain ⟨⟨_, place⟩, rest, hrest, rfl, _⟩ := List.map_eq_cons_iff.mp h
  obtain ⟨_, last, finish, prefixes, base, blanks⟩ := s
  cases hrest
  rfl

end Read

/-- A statement starts with a token. -/
theorem Statement.tokens_eq (st : Statement) : ∃ t rest, st.tokens = t :: rest := by
  cases st with
  | declare | base | rule => exact ⟨_, _, rfl⟩
  | facts sentence =>
    obtain ⟨t, rest, htokens, _⟩ := sentence.tokens_eq
    exact ⟨t, rest ++ _, by rw [tokens, htokens, List.cons_append]⟩

theorem Document.length_le (d : Document) : d.length ≤ d.tokens.length := by
  induction d with
  | nil => exact Nat.le_refl 0
  | cons st rest ih =>
    obtain ⟨t, others, htokens⟩ := st.tokens_eq
    have hlength : st.tokens.length = others.length + 1 := by rw [htokens, List.length_cons]
    rw [tokens, List.flatMap_cons, List.length_append, List.length_cons]
    rw [tokens] at ih
    omega

/-- Between two states this statement is read. -/
structure Stated (st : Statement) (s s' : State) : Prop where
  read : ∃ read, read.map Prod.fst = st.tokens ∧ s.rest = read ++ s'.rest
  scope : s'.scope = st.scope s.scope
  blanks : s'.blanks = s.blanks + st.brackets

namespace Stated
variable {st : Statement} {s s' : State}

/-- But for the declarations. -/
theorem took (h : Stated st s s') :
    Took st.tokens st.brackets s { s' with prefixes := s.prefixes, base := s.base } :=
  ⟨h.read, rfl, h.blanks⟩

theorem of_took (h : Took st.tokens st.brackets s s') (hscope : st.scope s.scope = s.scope) :
    Stated st s s' :=
  ⟨h.read, h.scope.trans hscope.symm, h.blanks⟩

end Stated

/-- What is read so far, and what a statement adds. -/
def Statement.adds (st : Statement) (s : State) (read : Ruleset) : Ruleset :=
  { read with
    rules := read.rules ++ st.rules s.scope s.blanks s.place
    facts := read.facts ++ st.triples s.scope s.blanks }

theorem Statement.adds_nothing {st : Statement} {s : State} {read : Ruleset}
    (hrules : st.rules s.scope s.blanks s.place = []) (hfacts : st.triples s.scope s.blanks = []) :
    st.adds s read = read := by
  rw [adds, hrules, hfacts, List.append_nil, List.append_nil]

namespace Read
variable {s : State} {fuel : Nat} {following : List Token}

theorem statement_reads_declare {space iri : String} (read : Ruleset)
    (h : s.ahead = (Statement.declare space iri).tokens ++ following) :
    ∃ s', statement fuel read s = .ok (read, s') ∧ Stated (.declare space iri) s s' := by
  obtain ⟨s₁, hkeyword, htook₁⟩ := advance_cons h
  obtain ⟨s₂, hname, htook₂⟩ := advance_cons (htook₁.ahead_eq h)
  have htook := htook₁.trans htook₂
  obtain ⟨s₃, hiri, htook₃⟩ := iriRef_reads (htook.ahead_eq h)
  obtain ⟨s₄, hdot, htook₄⟩ := expect_cons (htook₃.ahead_eq (htook.ahead_eq h))
  have hall := (htook.trans htook₃).trans htook₄
  have hprefixes : s₄.prefixes = s.prefixes := congrArg Scope.prefixes hall.scope
  have hbase : s₄.base = s.base := congrArg Scope.base hall.scope
  refine ⟨{ s₄ with prefixes := s₄.prefixes.insert space (s₂.scope.resolve iri) }, ?_,
    hall.read, ?_, hall.blanks⟩
  · rw [statement, peek_bind, h]
    show (advance >>= _) s = _
    rw [bind_of_ok hkeyword, bind_of_ok hname]
    show (iriRef >>= _) s₂ = _
    rw [bind_of_ok hiri, bind_of_ok hdot]
    rfl
  · rw [State.scope, Statement.scope, htook.scope]
    simp only [hprefixes, hbase]
    rfl

theorem statement_reads_base {iri : String} (read : Ruleset)
    (h : s.ahead = (Statement.base iri).tokens ++ following) :
    ∃ s', statement fuel read s = .ok (read, s') ∧ Stated (.base iri) s s' := by
  obtain ⟨s₁, hkeyword, htook₁⟩ := advance_cons h
  obtain ⟨s₂, hiri, htook₂⟩ := iriRef_reads (htook₁.ahead_eq h)
  obtain ⟨s₃, hdot, htook₃⟩ := expect_cons (htook₂.ahead_eq (htook₁.ahead_eq h))
  have hall := (htook₁.trans htook₂).trans htook₃
  have hprefixes : s₃.prefixes = s.prefixes := congrArg Scope.prefixes hall.scope
  refine ⟨{ s₃ with base := some (s₁.scope.resolve iri) }, ?_, hall.read, ?_, hall.blanks⟩
  · rw [statement, peek_bind, h]
    show (advance >>= _) s = _
    rw [bind_of_ok hkeyword, bind_of_ok hiri, bind_of_ok hdot]
    rfl
  · rw [State.scope, Statement.scope, htook₁.scope, hprefixes]
    rfl

theorem statement_reads_rule {first second : Block} {a : Arrow} (read : Ruleset)
    (hfuel : 2 * (Statement.rule first a second).tokens.length ≤ fuel)
    (h : s.ahead = (Statement.rule first a second).tokens ++ following)
    (hadmissible : (Statement.rule first a second).Admissible s.scope s.blanks) :
    ∃ s', statement fuel read s = .ok ((Statement.rule first a second).adds s read, s') ∧
      Stated (.rule first a second) s s' := by
  obtain ⟨hd, himplies⟩ := hadmissible
  simp only [Statement.tokens, List.length_append] at hfuel
  simp only [Statement.tokens, List.append_assoc] at h
  simp only [Statement.tokens, Scope.declares_append] at hd
  obtain ⟨s₁, hfirst, htook₁⟩ := formula_reads first fuel (by omega) h hd.1.1.1
  obtain ⟨s₂, harrow, htook₂⟩ := arrow_reads a fuel (by omega) (htook₁.ahead_eq h)
    (.cons rfl) (htook₁.scope ▸ hd.1.1.2) (htook₁.scope ▸ himplies)
  have htook := htook₁.trans htook₂
  have hahead := htook₂.ahead_eq (htook₁.ahead_eq h)
  obtain ⟨s₃, hsecond, htook₃⟩ := formula_reads second fuel (by omega) hahead
    (htook.scope ▸ hd.1.2)
  obtain ⟨s₄, hdot, htook₄⟩ := expect_cons (htook₃.ahead_eq hahead)
  refine ⟨s₄, ?_, .of_took ((htook.trans htook₃).trans htook₄) rfl⟩
  rw [htook.scope, htook.blanks] at hsecond
  rw [statement, peek_bind, h]
  show (here >>= _) s = _
  rw [bind_of_ok (here_eq h), bind_of_ok hfirst, bind_of_ok harrow, bind_of_ok hsecond,
    bind_of_ok hdot]
  simp only [Statement.adds, Statement.triples, List.append_nil, Statement.rules]
  cases a <;> rfl

/-- Facts and their dot. -/
def factsRest (fuel : Nat) (read : Ruleset) : Read Ruleset := do
  let facts ← triples fuel
  expect .dot
  match facts.find? Triple.hasVariables with
  | some fact => fail (← here) (.variableInFact fact)
  | none => return { read with facts := read.facts ++ facts }

/-- Anything but a keyword or a brace begins facts. -/
theorem statement_facts {t : Token} {read : Ruleset} (h : s.ahead.head? = some t)
    (hspace : t ≠ .prefixKeyword) (hbase : t ≠ .baseKeyword) (hbrace : t ≠ .lbrace) :
    statement fuel read s = factsRest fuel read s := by
  rw [statement, peek_bind, h]
  cases t <;> first
    | rfl
    | exact absurd rfl hspace
    | exact absurd rfl hbase
    | exact absurd rfl hbrace

theorem statement_reads_facts {sentence : Sentence} (read : Ruleset)
    (hfuel : 2 * (Statement.facts sentence).tokens.length ≤ fuel)
    (h : s.ahead = (Statement.facts sentence).tokens ++ following)
    (hadmissible : (Statement.facts sentence).Admissible s.scope s.blanks) :
    ∃ s', statement fuel read s = .ok ((Statement.facts sentence).adds s read, s') ∧
      Stated (.facts sentence) s s' := by
  obtain ⟨hd, hground⟩ := hadmissible
  simp only [Statement.tokens, List.length_append] at hfuel
  simp only [Statement.tokens, List.append_assoc] at h
  obtain ⟨s₁, hfacts, htook₁⟩ := triples_reads sentence fuel (by omega) h
    ⟨_, _, rfl, .inl rfl⟩ hd
  obtain ⟨s₂, hdot, htook₂⟩ := expect_cons (htook₁.ahead_eq h)
  refine ⟨s₂, ?_, .of_took (htook₁.trans htook₂) rfl⟩
  have hnone : (sentence.triples s.scope s.blanks).find? Triple.hasVariables = none :=
    List.find?_eq_none.mpr fun t ht => by simp [hground t ht]
  obtain ⟨t, hstart, hhead⟩ := sentence.head?_eq
  rw [statement_facts (by rw [h, hhead]) (Token.ne_of_startsSentence hstart rfl)
    (Token.ne_of_startsSentence hstart rfl) (Token.ne_of_startsSentence hstart rfl), factsRest,
    bind_of_ok hfacts, bind_of_ok hdot, hnone]
  simp only [Statement.adds, Statement.rules, List.append_nil]
  rfl

theorem statement_reads (st : Statement) (fuel : Nat) (read : Ruleset) (hfuel : 2 * st.tokens.length ≤ fuel)
    (h : s.ahead = st.tokens ++ following) (hadmissible : st.Admissible s.scope s.blanks) :
    ∃ s', statement fuel read s = .ok (st.adds s read, s') ∧ Stated st s s' := by
  cases st with
  | declare space iri =>
    rw [Statement.adds_nothing rfl rfl]
    exact statement_reads_declare read h
  | base iri =>
    rw [Statement.adds_nothing rfl rfl]
    exact statement_reads_base read h
  | rule first a second => exact statement_reads_rule read hfuel h hadmissible
  | facts sentence => exact statement_reads_facts read hfuel h hadmissible

end Read

/-! ### Documents -/

namespace Document

/-- What the document says from a state on. -/
def meaning (d : Document) (s : State) : Ruleset :=
  d.ruleset s.scope s.blanks (s.rest.map Prod.snd)

/-- What is read so far, and what a document adds. -/
def adds (d : Document) (s : State) (read : Ruleset) : Ruleset :=
  { read with
    rules := read.rules ++ (d.meaning s).rules
    facts := read.facts ++ (d.meaning s).facts }

variable {st : Statement} {rest : Document} {s s' : State}

theorem adds_nil (s : State) (read : Ruleset) : adds [] s read = read := by
  simp [adds, meaning, ruleset]

/-- Statement by statement. -/
theorem meaning_cons (h : Stated st s s') : meaning (st :: rest) s =
    { rest.meaning s' with
      rules := st.rules s.scope s.blanks s.place ++ (rest.meaning s').rules
      facts := st.triples s.scope s.blanks ++ (rest.meaning s').facts } := by
  have hplaces : s'.rest.map Prod.snd = (s.rest.map Prod.snd).drop st.tokens.length := by
    rw [← List.map_drop, ← h.took.rest_eq]
  rw [meaning, meaning, hplaces, h.scope, h.blanks]
  rfl

theorem adds_cons (h : Stated st s s') (read : Ruleset) :
    adds (st :: rest) s read = adds rest s' (st.adds s read) := by
  simp only [adds, meaning_cons h, Statement.adds, List.append_assoc]

end Document

theorem Read.statements_reads (d : Document) (inner fuel : Nat) {s : State} (read : Ruleset)
    (hinner : 2 * d.tokens.length ≤ inner) (hfuel : d.length ≤ fuel) (h : s.ahead = d.tokens)
    (hadmissible : d.Admissible s.scope s.blanks) :
    ∃ s', statements inner fuel read s = .ok (d.adds s read, s') ∧
      s'.prefixes = (d.meaning s).prefixes := by
  induction d generalizing s fuel read with
  | nil =>
    refine ⟨s, ?_, rfl⟩
    rw [Document.adds_nil]
    cases fuel with
    | zero => rfl
    | succ fuel =>
      rw [statements, peek_bind, h]
      rfl
  | cons st rest ih =>
    obtain ⟨fuel, rfl⟩ : ∃ f, fuel = f + 1 := ⟨fuel - 1, by simp at hfuel; omega⟩
    rw [Document.tokens, List.flatMap_cons] at h hinner
    rw [List.length_append] at hinner
    obtain ⟨s₁, hstatement, hstated⟩ :=
      statement_reads st inner read (by omega) h hadmissible.1
    have hahead : s₁.ahead = Document.tokens rest := hstated.took.ahead_eq h
    obtain ⟨s₂, hrest, hprefixes⟩ := ih fuel (st.adds s read) (s := s₁)
      (by rw [Document.tokens]; omega) (by simpa using hfuel) hahead
      (by rw [hstated.scope, hstated.blanks]; exact hadmissible.2)
    refine ⟨s₂, ?_, by rw [hprefixes, Document.meaning_cons hstated]⟩
    obtain ⟨t, others, htokens⟩ : ∃ t others, s.ahead = t :: others := by
      obtain ⟨t, others, htokens⟩ := st.tokens_eq
      exact ⟨t, others ++ _, by rw [h, htokens, List.cons_append]⟩
    rw [statements, peek_bind, htokens]
    show (statement inner read >>= fun read => statements inner fuel read) s = _
    rw [bind_of_ok hstatement, hrest, Document.adds_cons hstated]

/-- A document is read to its end. -/
theorem parseTokens_of_document {prefixes : SortedMap String String}
    {tokens : List (Token × Position)} (finish : Position) {d : Document}
    (htokens : d.tokens = tokens.map Prod.fst) (hadmissible : d.Admissible ⟨prefixes, none⟩ 0) :
    parseTokens prefixes tokens finish =
      .ok (d.ruleset ⟨prefixes, none⟩ 0 (tokens.map Prod.snd)) := by
  have hlength : d.tokens.length = tokens.length := by rw [htokens, List.length_map]
  have hcount := d.length_le
  obtain ⟨s', hread, hprefixes⟩ := Read.statements_reads d
    (2 * tokens.length + 2) (2 * tokens.length + 2) (s := .start prefixes tokens finish) {}
    (by omega) (by omega) htokens.symm hadmissible
  have hdocument : (Read.document (2 * tokens.length + 2)).run (.start prefixes tokens finish) =
      .ok (d.adds (.start prefixes tokens finish) {}, s') := hread
  rw [parseTokens, hdocument]
  simp only [Document.adds, hprefixes, List.nil_append]
  rfl

end HornReasoner.N3
