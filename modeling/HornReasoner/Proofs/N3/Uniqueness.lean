import HornReasoner.Proofs.N3.Trees

/-! Tokens have one tree.

Where a phrase ends is told by the tokens behind it, so two phrases that stand at the same place are
the same phrase, and the same tokens follow. A document is made of phrases that end with a token of
their own; no tokens are those of two documents (`Document.tokens_injective`). -/
namespace HornReasoner.N3

variable {f f' : List Token}

/-! ### Terms and verbs -/

theorem Reference.append_inj {r : Reference} {w : Written} (h : r.token :: f = w.tokens ++ f') :
    w = .reference r ∧ f = f' := by
  cases w with
  | reference r' =>
    cases r <;> cases r' <;> cases h <;> exact ⟨rfl, rfl⟩
  | _ => cases r <;> cases h

theorem Written.append_inj {w w' : Written} (h : w.tokens ++ f = w'.tokens ++ f') (hf : NoSuffix f)
    (hf' : NoSuffix f') : w = w' ∧ f = f' := by
  cases w' with
  | reference r =>
    obtain ⟨heq, hrest⟩ := Reference.append_inj h.symm
    exact ⟨heq, hrest.symm⟩
  | plain body =>
    cases w with
    | reference r =>
      obtain ⟨heq, hrest⟩ := Reference.append_inj h
      exact ⟨heq.symm, hrest⟩
    | tagged | typed =>
      cases h
      cases hf' _ rfl
    | _ => cases h <;> exact ⟨rfl, rfl⟩
  | tagged body tag =>
    cases w with
    | reference r =>
      obtain ⟨heq, hrest⟩ := Reference.append_inj h
      exact ⟨heq.symm, hrest⟩
    | plain =>
      cases h
      cases hf _ rfl
    | _ => cases h <;> exact ⟨rfl, rfl⟩
  | typed body r =>
    cases w with
    | reference r =>
      obtain ⟨heq, hrest⟩ := Reference.append_inj h
      exact ⟨heq.symm, hrest⟩
    | plain =>
      cases h
      cases hf _ rfl
    | typed body' r' => cases r <;> cases r' <;> cases h <;> exact ⟨rfl, rfl⟩
    | _ => cases h
  | var | blank | integer | decimal | double | trueKeyword | falseKeyword =>
    cases w with
    | reference r =>
      obtain ⟨heq, hrest⟩ := Reference.append_inj h
      exact ⟨heq.symm, hrest⟩
    | _ => cases h <;> exact ⟨rfl, rfl⟩

/-- No term starts with one of the abbreviations of verbs. -/
theorem Written.append_ne_cons {w : Written} {t : Token} (ht : t.startsTerm = false) :
    w.tokens ++ f ≠ t :: f' := by
  obtain ⟨u, rest, htokens, hu⟩ := w.tokens_eq
  rw [htokens]
  rintro ⟨⟩
  rw [ht] at hu
  cases hu

theorem Verb.append_inj {v v' : Verb} (h : v.tokens ++ f = v'.tokens ++ f') (hf : NoSuffix f)
    (hf' : NoSuffix f') : v = v' ∧ f = f' := by
  cases v with
  | term w =>
    cases v' with
    | term w' =>
      obtain ⟨rfl, hrest⟩ := Written.append_inj h hf hf'
      exact ⟨rfl, hrest⟩
    | a | sameAs | implies => exact absurd h (Written.append_ne_cons rfl)
  | a | sameAs | implies =>
    cases v' with
    | term w' => exact absurd h.symm (Written.append_ne_cons rfl)
    | _ => cases h <;> exact ⟨rfl, rfl⟩

/-! ### Properties, objects and brackets -/

/-- Semicolons end before anything else. -/
theorem semicolons_append_inj {k k' : Nat}
    (h : List.replicate k Token.semicolon ++ f = List.replicate k' .semicolon ++ f')
    (hf : f.head? ≠ some .semicolon) (hf' : f'.head? ≠ some .semicolon) : k = k' ∧ f = f' := by
  induction k generalizing k' with
  | zero =>
    cases k' with
    | zero => exact ⟨rfl, h⟩
    | succ k' =>
      rw [show f = _ from h] at hf
      exact absurd rfl hf
  | succ k ih =>
    cases k' with
    | zero =>
      rw [← show _ = f' from h] at hf'
      exact absurd rfl hf'
    | succ k' =>
      obtain ⟨rfl, hrest⟩ := ih (List.cons.inj h).2
      exact ⟨rfl, hrest⟩

theorem Properties.head?_ne (p : Properties) {t : Token} (ht : t.startsVerb = false) :
    (p.tokens ++ f).head? ≠ some t := by
  obtain ⟨v, rest, htokens⟩ := p.starts_with_verb
  rw [htokens, List.append_assoc]
  exact v.head?_ne _ ht

/-- What closes verbs and objects is no verb. -/
theorem Closes.ne_properties (hf : Closes f) (p : Properties) : f ≠ p.tokens ++ f' := by
  obtain ⟨t, rest, rfl, ht⟩ := hf
  have hstart : t.startsVerb = false := by cases t <;> first | rfl | cases ht
  intro heq
  exact p.head?_ne (f := f') hstart (by rw [← heq]; rfl)

mutual

theorem Properties.append_inj (p p' : Properties) {f f' : List Token}
    (h : p.tokens ++ f = p'.tokens ++ f') (hf : Closes f) (hf' : Closes f') : p = p' ∧ f = f' := by
  match p, p' with
  | .last v os k, .last v' os' k' =>
    simp only [Properties.tokens, List.append_assoc] at h
    obtain ⟨rfl, hobjects⟩ := Verb.append_inj h (os.noSuffix _) (os'.noSuffix _)
    obtain ⟨rfl, hsemi⟩ := Objects.append_inj os os' hobjects (endsObjects_semicolons hf k)
      (endsObjects_semicolons hf' k')
    obtain ⟨rfl, hrest⟩ := semicolons_append_inj hsemi hf.head?_ne hf'.head?_ne
    exact ⟨rfl, hrest⟩
  | .more v os k rest, .more v' os' k' rest' =>
    simp only [Properties.tokens, List.append_assoc] at h
    obtain ⟨rfl, hobjects⟩ := Verb.append_inj h (os.noSuffix _) (os'.noSuffix _)
    obtain ⟨rfl, hsemi⟩ := Objects.append_inj os os' hobjects (.cons rfl nofun) (.cons rfl nofun)
    obtain ⟨hk, hmore⟩ := semicolons_append_inj hsemi (rest.head?_ne rfl)
      (rest'.head?_ne rfl)
    cases hk
    obtain ⟨rfl, hrest⟩ := Properties.append_inj rest rest' hmore hf hf'
    exact ⟨rfl, hrest⟩
  | .last v os k, .more v' os' k' rest' =>
    simp only [Properties.tokens, List.append_assoc] at h
    obtain ⟨rfl, hobjects⟩ := Verb.append_inj h (os.noSuffix _) (os'.noSuffix _)
    obtain ⟨rfl, hsemi⟩ := Objects.append_inj os os' hobjects (endsObjects_semicolons hf k)
      (.cons rfl nofun)
    obtain ⟨-, hrest⟩ := semicolons_append_inj hsemi hf.head?_ne (rest'.head?_ne rfl)
    exact absurd hrest (hf.ne_properties rest')
  | .more v os k rest, .last v' os' k' =>
    simp only [Properties.tokens, List.append_assoc] at h
    obtain ⟨rfl, hobjects⟩ := Verb.append_inj h (os.noSuffix _) (os'.noSuffix _)
    obtain ⟨rfl, hsemi⟩ := Objects.append_inj os os' hobjects (.cons rfl nofun)
      (endsObjects_semicolons hf' k')
    obtain ⟨-, hrest⟩ := semicolons_append_inj hsemi (rest.head?_ne rfl) hf'.head?_ne
    exact absurd hrest.symm (hf'.ne_properties rest)

theorem Objects.append_inj (os os' : Objects) {f f' : List Token}
    (h : os.tokens ++ f = os'.tokens ++ f') (hf : EndsObjects f) (hf' : EndsObjects f') :
    os = os' ∧ f = f' := by
  match os, os' with
  | .one o, .one o' =>
    obtain ⟨rfl, hrest⟩ := Object.append_inj o o' h hf.1 hf'.1
    exact ⟨rfl, hrest⟩
  | .more o rest, .more o' rest' =>
    simp only [Objects.tokens, List.append_assoc] at h
    obtain ⟨rfl, hmore⟩ := Object.append_inj o o' h (.cons rfl) (.cons rfl)
    obtain ⟨rfl, hrest⟩ := Objects.append_inj rest rest' (List.cons.inj hmore).2 hf hf'
    exact ⟨rfl, hrest⟩
  | .one o, .more o' rest' =>
    simp only [Objects.tokens, List.append_assoc] at h
    obtain ⟨-, rfl⟩ := Object.append_inj o o' h hf.1 (.cons rfl)
    exact absurd rfl hf.2
  | .more o rest, .one o' =>
    simp only [Objects.tokens, List.append_assoc] at h
    obtain ⟨-, rfl⟩ := Object.append_inj o o' h (.cons rfl) hf'.1
    exact absurd rfl hf'.2

theorem Object.append_inj (o o' : Object) {f f' : List Token} (h : o.tokens ++ f = o'.tokens ++ f')
    (hf : NoSuffix f) (hf' : NoSuffix f') : o = o' ∧ f = f' := by
  match o, o' with
  | .term w, .term w' =>
    obtain ⟨rfl, hrest⟩ := Written.append_inj h hf hf'
    exact ⟨rfl, hrest⟩
  | .bracket b, .bracket b' =>
    obtain ⟨rfl, hrest⟩ := Bracket.append_inj b b' h
    exact ⟨rfl, hrest⟩
  | .term w, .bracket b =>
    obtain ⟨rest, htokens⟩ := b.tokens_eq
    rw [Object.tokens, Object.tokens, htokens] at h
    exact absurd h (Written.append_ne_cons rfl)
  | .bracket b, .term w =>
    obtain ⟨rest, htokens⟩ := b.tokens_eq
    rw [Object.tokens, Object.tokens, htokens] at h
    exact absurd h.symm (Written.append_ne_cons rfl)

theorem Bracket.append_inj (b b' : Bracket) {f f' : List Token}
    (h : b.tokens ++ f = b'.tokens ++ f') : b = b' ∧ f = f' := by
  match b, b' with
  | .empty, .empty =>
    cases h
    exact ⟨rfl, rfl⟩
  | .stating p, .stating p' =>
    simp only [Bracket.tokens, List.cons_append, List.append_assoc] at h
    obtain ⟨rfl, hclose⟩ := Properties.append_inj p p' (List.cons.inj h).2 ⟨_, _, rfl, rfl⟩
      ⟨_, _, rfl, rfl⟩
    exact ⟨rfl, (List.cons.inj hclose).2⟩
  | .empty, .stating p =>
    simp only [Bracket.tokens, List.cons_append, List.append_assoc] at h
    exact absurd (List.cons.inj h).2 (Closes.ne_properties ⟨_, _, rfl, rfl⟩ p)
  | .stating p, .empty =>
    simp only [Bracket.tokens, List.cons_append, List.append_assoc] at h
    exact absurd (List.cons.inj h).2.symm (Closes.ne_properties ⟨_, _, rfl, rfl⟩ p)

end

/-! ### Sentences and formulas -/

theorem Sentence.append_inj {sentence sentence' : Sentence}
    (h : sentence.tokens ++ f = sentence'.tokens ++ f') (hf : EndsSentence f)
    (hf' : EndsSentence f') : sentence = sentence' ∧ f = f' := by
  cases sentence with
  | said w p =>
    cases sentence' with
    | said w' p' =>
      simp only [Sentence.tokens, List.append_assoc] at h
      obtain ⟨rfl, hproperties⟩ := Written.append_inj h (p.noSuffix _) (p'.noSuffix _)
      obtain ⟨rfl, hrest⟩ := Properties.append_inj p p' hproperties hf.closes hf'.closes
      exact ⟨rfl, hrest⟩
    | bracket b | bracketSaid b =>
      obtain ⟨rest, htokens⟩ := b.tokens_eq
      simp only [Sentence.tokens, List.append_assoc, htokens, List.cons_append] at h
      exact absurd h (Written.append_ne_cons rfl)
  | bracket b =>
    cases sentence' with
    | said w p =>
      obtain ⟨rest, htokens⟩ := b.tokens_eq
      simp only [Sentence.tokens, List.append_assoc, htokens, List.cons_append] at h
      exact absurd h.symm (Written.append_ne_cons rfl)
    | bracket b' =>
      obtain ⟨rfl, hrest⟩ := Bracket.append_inj b b' h
      exact ⟨rfl, hrest⟩
    | bracketSaid b' p =>
      simp only [Sentence.tokens, List.append_assoc] at h
      obtain ⟨-, hrest⟩ := Bracket.append_inj b b' h
      exact absurd hrest (hf.closes.ne_properties p)
  | bracketSaid b p =>
    simp only [Sentence.tokens, List.append_assoc] at h
    cases sentence' with
    | said w p' =>
      obtain ⟨rest, htokens⟩ := b.tokens_eq
      simp only [List.append_assoc, htokens, List.cons_append] at h
      exact absurd h.symm (Written.append_ne_cons rfl)
    | bracket b' =>
      obtain ⟨-, hrest⟩ := Bracket.append_inj b b' h
      exact absurd hrest.symm (hf'.closes.ne_properties p)
    | bracketSaid b' p' =>
      simp only [List.append_assoc] at h
      obtain ⟨rfl, hproperties⟩ := Bracket.append_inj b b' h
      obtain ⟨rfl, hrest⟩ := Properties.append_inj p p' hproperties hf.closes hf'.closes
      exact ⟨rfl, hrest⟩

theorem Sentence.append_ne_cons {sentence : Sentence} {t : Token} (ht : t.startsSentence = false) :
    sentence.tokens ++ f ≠ t :: f' := by
  obtain ⟨u, rest, htokens, hu⟩ := sentence.tokens_eq
  rw [htokens]
  rintro ⟨⟩
  exact Token.ne_of_startsSentence hu ht rfl

theorem Block.append_inj {b b' : Block} (h : b.tokens ++ .rbrace :: f = b'.tokens ++ .rbrace :: f') :
    b = b' ∧ f = f' := by
  induction b generalizing b' with
  | done =>
    cases b' with
    | done =>
      cases h
      exact ⟨rfl, rfl⟩
    | dot => cases h
    | last => exact absurd h.symm (Sentence.append_ne_cons rfl)
    | more sentence rest =>
      rw [Block.tokens, Block.tokens, List.append_assoc] at h
      exact absurd h.symm (Sentence.append_ne_cons rfl)
  | dot rest ih =>
    cases b' with
    | done => cases h
    | dot rest' =>
      obtain ⟨rfl, hrest⟩ := ih (List.cons.inj h).2
      exact ⟨rfl, hrest⟩
    | last => exact absurd h.symm (Sentence.append_ne_cons rfl)
    | more sentence rest' =>
      rw [Block.tokens, Block.tokens, List.append_assoc] at h
      exact absurd h.symm (Sentence.append_ne_cons rfl)
  | last sentence =>
    cases b' with
    | done | dot => exact absurd h (Sentence.append_ne_cons rfl)
    | last sentence' =>
      obtain ⟨rfl, hrest⟩ := Sentence.append_inj h ⟨_, _, rfl, .inr rfl⟩ ⟨_, _, rfl, .inr rfl⟩
      exact ⟨rfl, (List.cons.inj hrest).2⟩
    | more sentence' rest' =>
      rw [Block.tokens, Block.tokens, List.append_assoc] at h
      obtain ⟨-, hrest⟩ := Sentence.append_inj h ⟨_, _, rfl, .inr rfl⟩ ⟨_, _, rfl, .inl rfl⟩
      cases hrest
  | more sentence rest ih =>
    rw [Block.tokens, List.append_assoc] at h
    cases b' with
    | done | dot => exact absurd h (Sentence.append_ne_cons rfl)
    | last sentence' =>
      obtain ⟨-, hrest⟩ := Sentence.append_inj h ⟨_, _, rfl, .inl rfl⟩ ⟨_, _, rfl, .inr rfl⟩
      cases hrest
    | more sentence' rest' =>
      rw [Block.tokens, List.append_assoc] at h
      obtain ⟨rfl, hmore⟩ := Sentence.append_inj h ⟨_, _, rfl, .inl rfl⟩ ⟨_, _, rfl, .inl rfl⟩
      obtain ⟨rfl, hrest⟩ := ih (List.cons.inj hmore).2
      exact ⟨rfl, hrest⟩

theorem Block.formula_append_inj {b b' : Block} (h : b.formula ++ f = b'.formula ++ f') :
    b = b' ∧ f = f' := by
  simp only [Block.formula, List.cons_append, List.append_assoc] at h
  exact Block.append_inj (List.cons.inj h).2

theorem Arrow.append_inj {a a' : Arrow} (h : a.tokens ++ f = a'.tokens ++ f') (hf : NoSuffix f)
    (hf' : NoSuffix f') : a = a' ∧ f = f' := by
  cases a with
  | term w =>
    cases a' with
    | term w' =>
      obtain ⟨rfl, hrest⟩ := Written.append_inj h hf hf'
      exact ⟨rfl, hrest⟩
    | implies | impliedBy => exact absurd h (Written.append_ne_cons rfl)
  | implies | impliedBy =>
    cases a' with
    | term w' => exact absurd h.symm (Written.append_ne_cons rfl)
    | _ => cases h <;> exact ⟨rfl, rfl⟩

/-! ### Statements and documents -/

theorem Statement.append_inj {s s' : Statement} (h : s.tokens ++ f = s'.tokens ++ f') :
    s = s' ∧ f = f' := by
  have hfacts {sentence : Sentence} {t : Token} {f f' : List Token}
      (ht : t.startsSentence = false) : (facts sentence).tokens ++ f ≠ t :: f' := by
    rw [tokens, List.append_assoc]
    exact Sentence.append_ne_cons ht
  cases s with
  | declare space iri =>
    cases s' with
    | facts => exact absurd h.symm (hfacts rfl)
    | _ => cases h <;> exact ⟨rfl, rfl⟩
  | base iri =>
    cases s' with
    | facts => exact absurd h.symm (hfacts rfl)
    | _ => cases h <;> exact ⟨rfl, rfl⟩
  | rule first arrow second =>
    cases s' with
    | declare | base => cases h
    | facts => exact absurd h.symm (hfacts rfl)
    | rule first' arrow' second' =>
      simp only [tokens, List.append_assoc] at h
      obtain ⟨rfl, harrow⟩ := Block.formula_append_inj h
      obtain ⟨rfl, hsecond⟩ := Arrow.append_inj harrow (.cons rfl) (.cons rfl)
      obtain ⟨rfl, hdot⟩ := Block.formula_append_inj hsecond
      exact ⟨rfl, (List.cons.inj hdot).2⟩
  | facts sentence =>
    cases s' with
    | declare | base | rule => exact absurd h (hfacts rfl)
    | facts sentence' =>
      simp only [tokens, List.append_assoc] at h
      obtain ⟨rfl, hdot⟩ := Sentence.append_inj h ⟨_, _, rfl, .inl rfl⟩ ⟨_, _, rfl, .inl rfl⟩
      exact ⟨rfl, (List.cons.inj hdot).2⟩

/-- No tokens are those of two documents. -/
theorem Document.tokens_injective {d d' : Document} (h : d.tokens = d'.tokens) : d = d' := by
  induction d generalizing d' with
  | nil =>
    cases d' with
    | nil => rfl
    | cons s rest =>
      obtain ⟨t, others, htokens⟩ := s.tokens_eq
      rw [tokens, tokens, List.flatMap_cons, htokens] at h
      cases h
  | cons s rest ih =>
    cases d' with
    | nil =>
      obtain ⟨t, others, htokens⟩ := s.tokens_eq
      rw [tokens, tokens, List.flatMap_cons, htokens] at h
      cases h
    | cons s' rest' =>
      rw [tokens, tokens, List.flatMap_cons, List.flatMap_cons] at h
      obtain ⟨rfl, hrest⟩ := Statement.append_inj h
      rw [ih hrest]

/-- Tokens are accepted if and only if their document is admissible. -/
theorem Document.accepted_iff {prefixes : SortedMap String String}
    {tokens : List (Token × Position)} {finish : Position} {d : Document}
    (hd : d.tokens = tokens.map Prod.fst) {r : Ruleset} :
    parseTokens prefixes tokens finish = .ok r ↔ d.Admissible ⟨prefixes, none⟩ 0 ∧
      r = d.ruleset ⟨prefixes, none⟩ 0 (tokens.map Prod.snd) := by
  constructor
  · intro h
    obtain ⟨d', hd', hadmissible, hr⟩ := document_of_parseTokens h
    obtain rfl := tokens_injective (hd.trans hd'.symm)
    exact ⟨hadmissible, hr⟩
  · rintro ⟨hadmissible, rfl⟩
    exact parseTokens_of_document finish hd hadmissible

end HornReasoner.N3
