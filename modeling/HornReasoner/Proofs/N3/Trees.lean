import HornReasoner.Proofs.N3.Statements

/-! What is read is a tree.

If a reader succeeds, the tokens it took are those of a tree, it found what the tree says, and every
namespace the tree uses is declared: the converse of the reading of trees, by induction on the fuel. -/
namespace HornReasoner.N3

theorem Written.value_eq_iri {w : Written} {scope : Scope} {iri : String}
    (h : w.value scope = .iri iri) : ∃ r, w = .reference r ∧ iri = r.iri scope := by
  cases w with
  | reference r => exact ⟨r, rfl, (Term.iri.inj h).symm⟩
  | var | blank | plain | tagged | typed | integer | decimal | double | trueKeyword | falseKeyword =>
    cases h

namespace Scope
variable {scope : Scope}

theorem declares_name {space name : String} (h : scope.prefixes.contains space = true) :
    scope.Declares [.prefixedName space name] := fun space' name' hm => by
  cases List.mem_singleton.mp hm
  exact h

@[simp] theorem declares_semicolons (k : Nat) : scope.Declares (List.replicate k .semicolon) :=
  fun _ _ hm => nomatch List.eq_of_mem_replicate hm

end Scope

/-- A sentence goes before a block that starts with a dot, or is empty. -/
theorem Block.after (sentence : Sentence) {b : Block} {following : List Token}
    (h : EndsSentence (b.tokens ++ .rbrace :: following)) :
    ∃ b' : Block, b'.tokens = sentence.tokens ++ b.tokens ∧
      b'.brackets = sentence.brackets + b.brackets ∧ ∀ scope before, b'.triples scope before =
        sentence.triples scope before ++ b.triples scope (before + sentence.brackets) := by
  cases b with
  | done => exact ⟨.last sentence, (List.append_nil _).symm, rfl, fun _ _ => (List.append_nil _).symm⟩
  | dot rest => exact ⟨.more sentence rest, rfl, rfl, fun _ _ => rfl⟩
  | last next | more next rest =>
    obtain ⟨t, others, heq, ht⟩ := h
    obtain ⟨u, others', htokens, hstart⟩ := next.tokens_eq
    rw [Block.tokens, htokens] at heq
    cases heq
    rcases ht with rfl | rfl <;> cases hstart

namespace Read
variable {s s' : State} {fuel : Nat}

/-- Out of fuel, a reader fails at the next token. -/
theorem stopped_ne_ok {α : Type} {a : α} {cause : Cause} :
    (here >>= fun position => fail position cause : Read α) s ≠ .ok (a, s') := nofun

/-- The token that was seen is the one that is read. -/
theorem took_of_seen {t : Token} {found : Option Token} (hseen : s.ahead.head? = some t)
    (h : advance s = .ok (found, s')) : Took [t] 0 s s' := by
  obtain ⟨rest, hahead⟩ := List.head?_eq_some_iff.mp hseen
  obtain ⟨next, hnext, htook⟩ := advance_cons hahead
  rw [hnext] at h
  cases h
  exact htook

/-! ### Terms and verbs -/

/-- A term was read. -/
def FoundTerm (s s' : State) (v : Term) : Prop :=
  ∃ w : Written, Took w.tokens 0 s s' ∧ v = w.value s.scope ∧ s.scope.Declares w.tokens

theorem term_tree {v : Term} (h : term fuel s = .ok (v, s')) : FoundTerm s s' v := by
  induction fuel generalizing s s' v with
  | zero => exact absurd h stopped_ne_ok
  | succ fuel ih =>
    rw [term] at h
    obtain ⟨found, s₁, hread, h⟩ := bind_eq_ok.mp h
    cases found with
    | none => exact absurd h unexpected_ne_ok
    | some t =>
      have htook := took_of_advance hread
      -- the terms of one token that need no declaration
      have hone (w : Written) (hw : w.tokens = [t]) (ht : t.isName = false)
          (h : (pure (w.value s.scope) : Read Term) s₁ = .ok (v, s')) : FoundTerm s s' v := by
        obtain ⟨rfl, rfl⟩ := pure_eq_ok.mp h
        exact ⟨w, hw ▸ htook, rfl, hw ▸ Scope.declares_token ht⟩
      cases t with
      | iriRef iri =>
        obtain ⟨_, s₂, hresolved, h⟩ := bind_eq_ok.mp h
        rw [resolve_eq, htook.scope] at hresolved
        cases hresolved
        exact hone (.reference (.full iri)) rfl rfl h
      | prefixedName space name =>
        obtain ⟨_, s₂, hexpanded, h⟩ := bind_eq_ok.mp h
        obtain ⟨hspace, rfl, rfl⟩ := expand_eq_ok.mp hexpanded
        obtain ⟨rfl, rfl⟩ := pure_eq_ok.mp h
        rw [htook.scope] at hspace ⊢
        exact ⟨.reference (.short space name), htook, rfl, Scope.declares_name hspace⟩
      | var name => exact hone (.var name) rfl rfl h
      | blankLabel label => exact hone (.blank label) rfl rfl h
      | integer digits => exact hone (.integer digits) rfl rfl h
      | decimal digits => exact hone (.decimal digits) rfl rfl h
      | double digits => exact hone (.double digits) rfl rfl h
      | trueKeyword => exact hone .trueKeyword rfl rfl h
      | falseKeyword => exact hone .falseKeyword rfl rfl h
      | string body =>
        obtain ⟨next, s₂, hpeek, h⟩ := bind_eq_ok.mp h
        rw [peek_eq] at hpeek
        cases hpeek
        cases hnext : s₁.ahead.head? with
        | none =>
          rw [hnext] at h
          exact hone (.plain body) rfl rfl h
        | some t =>
          rw [hnext] at h
          cases t with
          | langTag tag =>
            obtain ⟨_, s₂, hread', h⟩ := bind_eq_ok.mp h
            obtain ⟨rfl, rfl⟩ := pure_eq_ok.mp h
            exact ⟨.tagged body tag, htook.trans (took_of_seen hnext hread'), rfl,
              Scope.declares_cons.mpr ⟨Scope.declares_token rfl, Scope.declares_token rfl⟩⟩
          | doubleCaret =>
            obtain ⟨_, s₂, hread', h⟩ := bind_eq_ok.mp h
            have htook' := htook.trans (took_of_seen hnext hread')
            obtain ⟨datatype, s₃, hdatatype, h⟩ := bind_eq_ok.mp h
            obtain ⟨w, htook₃, hvalue, hd⟩ := ih hdatatype
            cases datatype with
            | iri iri =>
              obtain ⟨rfl, rfl⟩ := pure_eq_ok.mp h
              obtain ⟨r, rfl, rfl⟩ := Written.value_eq_iri hvalue.symm
              rw [htook'.scope] at hd ⊢
              exact ⟨.typed body r, htook'.trans htook₃, rfl,
                Scope.declares_cons.mpr ⟨Scope.declares_token rfl,
                  Scope.declares_cons.mpr ⟨Scope.declares_token rfl, hd⟩⟩⟩
            | blank | literal | var => exact absurd h stopped_ne_ok
          | _ => exact hone (.plain body) rfl rfl h
      | prefixKeyword | baseKeyword | implies | impliedBy | sameAs | a | langTag | doubleCaret
      | lbrace | rbrace | lbracket | rbracket | dot | comma | semicolon =>
        exact absurd h unexpected_ne_ok

/-- A verb was read. -/
def FoundVerb (s s' : State) (v : Term) : Prop :=
  ∃ w : Verb, Took w.tokens 0 s s' ∧ v = w.value s.scope ∧ s.scope.Declares w.tokens

theorem verb_tree {v : Term} (h : verb fuel s = .ok (v, s')) : FoundVerb s s' v := by
  have hterm (h : term fuel s = .ok (v, s')) : FoundVerb s s' v := by
    obtain ⟨w, hw⟩ := term_tree h
    exact ⟨.term w, hw⟩
  rw [verb, peek_bind] at h
  cases hnext : s.ahead.head? with
  | none =>
    rw [hnext] at h
    exact hterm h
  | some t =>
    rw [hnext] at h
    have hone (w : Verb) (hw : w.tokens = [t]) (ht : t.isName = false)
        (h : (advance >>= fun _ => pure (w.value s.scope) : Read Term) s = .ok (v, s')) :
        FoundVerb s s' v := by
      obtain ⟨_, s₁, hread, h⟩ := bind_eq_ok.mp h
      obtain ⟨rfl, rfl⟩ := pure_eq_ok.mp h
      exact ⟨w, hw ▸ took_of_seen hnext hread, rfl, hw ▸ Scope.declares_token ht⟩
    cases t with
    | a => exact hone .a rfl rfl h
    | sameAs => exact hone .sameAs rfl rfl h
    | implies => exact hone .implies rfl rfl h
    | _ => exact hterm h

/-! ### Verbs and objects -/

theorem semicolons_tree (h : semicolons fuel s = .ok ((), s')) :
    ∃ k, Took (List.replicate k .semicolon) 0 s s' := by
  induction fuel generalizing s with
  | zero =>
    obtain ⟨_, rfl⟩ := pure_eq_ok.mp h
    exact ⟨0, .refl s⟩
  | succ fuel ih =>
    rw [semicolons, peek_bind] at h
    by_cases hsemi : s.ahead.head? = some .semicolon
    · rw [if_pos hsemi] at h
      obtain ⟨_, s₁, hread, h⟩ := bind_eq_ok.mp h
      obtain ⟨k, htook⟩ := ih h
      exact ⟨k + 1, (took_of_seen hsemi hread).trans htook⟩
    · rw [if_neg hsemi] at h
      obtain ⟨_, rfl⟩ := pure_eq_ok.mp h
      exact ⟨0, .refl s⟩

/-- A semicolon that was seen is skipped. -/
theorem semicolons_tree_seen (hseen : s.ahead.head? = some .semicolon)
    (h : semicolons (fuel + 1) s = .ok ((), s')) :
    ∃ k, Took (List.replicate (k + 1) .semicolon) 0 s s' := by
  rw [semicolons, peek_bind, if_pos hseen] at h
  obtain ⟨_, s₁, hread, h⟩ := bind_eq_ok.mp h
  obtain ⟨k, htook⟩ := semicolons_tree h
  exact ⟨k, (took_of_seen hseen hread).trans htook⟩

theorem atEnd_eq_ok {b : Bool} (h : atEnd s = .ok (b, s')) : s' = s := by
  rw [atEnd, peek_bind] at h
  cases hnext : s.ahead.head? with
  | none =>
    rw [hnext] at h
    exact (pure_eq_ok.mp h).2.symm
  | some t =>
    rw [hnext] at h
    cases t <;> exact (pure_eq_ok.mp h).2.symm

mutual

theorem properties_tree (fuel : Nat) {s s' : State} {subject : Term} {ts : List Triple}
    (h : properties fuel subject s = .ok (ts, s')) : ∃ p : Properties,
    Took p.tokens p.brackets s s' ∧ ts = p.triples s.scope subject s.blanks ∧
      s.scope.Declares p.tokens := by
  match fuel with
  | 0 =>
    rw [properties] at h
    exact absurd h stopped_ne_ok
  | fuel + 1 =>
    rw [properties] at h
    obtain ⟨_, s₁, hverb, h⟩ := bind_eq_ok.mp h
    obtain ⟨_, s₂, hobjects, h⟩ := bind_eq_ok.mp h
    obtain ⟨v, htook₁, rfl, hd₁⟩ := verb_tree hverb
    obtain ⟨os, htook₂, rfl, hd₂⟩ := objects_tree fuel hobjects
    have htook := htook₁.trans htook₂
    rw [Nat.zero_add] at htook
    rw [htook₁.scope] at hd₂
    rw [htook₁.scope, htook₁.blanks] at h
    rw [peek_bind] at h
    by_cases hsemi : s₂.ahead.head? = some .semicolon
    · rw [if_neg (fun hne => hne hsemi)] at h
      obtain ⟨_, s₃, hskip, h⟩ := bind_eq_ok.mp h
      obtain ⟨ended, _, hend, h⟩ := bind_eq_ok.mp h
      cases atEnd_eq_ok hend
      -- objects were read, so there is fuel for the semicolon
      obtain ⟨fuel, rfl⟩ : ∃ f, fuel = f + 1 := by
        cases fuel with
        | zero =>
          rw [objects] at hobjects
          exact absurd hobjects stopped_ne_ok
        | succ f => exact ⟨f, rfl⟩
      obtain ⟨k, htook₃⟩ := semicolons_tree_seen hsemi hskip
      have htook' := htook.trans htook₃
      cases ended with
      | true =>
        obtain ⟨rfl, rfl⟩ := pure_eq_ok.mp h
        refine ⟨.last v os (k + 1), htook', rfl, ?_⟩
        simp [Properties.tokens, hd₁, hd₂]
      | false =>
        obtain ⟨_, s₄, hrest, h⟩ := bind_eq_ok.mp h
        obtain ⟨rfl, rfl⟩ := pure_eq_ok.mp h
        obtain ⟨rest, htook₄, rfl, hd₄⟩ := properties_tree (fuel + 1) hrest
        rw [htook'.scope] at hd₄
        refine ⟨.more v os k rest, htook'.trans htook₄, ?_, ?_⟩
        · rw [htook'.scope, htook'.blanks]
          rfl
        · rw [Properties.tokens]
          simp only [Scope.declares_append]
          exact ⟨⟨⟨hd₁, hd₂⟩, Scope.declares_semicolons _⟩, hd₄⟩
    · rw [if_pos hsemi] at h
      obtain ⟨rfl, rfl⟩ := pure_eq_ok.mp h
      refine ⟨.last v os 0, by simpa [Properties.tokens, Properties.brackets] using htook, rfl, ?_⟩
      simp [Properties.tokens, hd₁, hd₂]

theorem objects_tree (fuel : Nat) {s s' : State} {subject verb : Term} {ts : List Triple}
    (h : objects fuel subject verb s = .ok (ts, s')) : ∃ os : Objects,
    Took os.tokens os.brackets s s' ∧ ts = os.triples s.scope subject verb s.blanks ∧
      s.scope.Declares os.tokens := by
  match fuel with
  | 0 =>
    rw [objects] at h
    exact absurd h stopped_ne_ok
  | fuel + 1 =>
    rw [objects] at h
    obtain ⟨⟨_, _⟩, s₁, hobject, h⟩ := bind_eq_ok.mp h
    obtain ⟨o, htook₁, rfl, rfl, hd₁⟩ := object_tree fuel hobject
    obtain ⟨next, _, hpeek, h⟩ := bind_eq_ok.mp h
    rw [peek_eq] at hpeek
    cases hpeek
    by_cases hcomma : s₁.ahead.head? = some .comma
    · rw [if_pos hcomma] at h
      obtain ⟨_, s₂, hread, h⟩ := bind_eq_ok.mp h
      have htook := htook₁.trans (took_of_seen hcomma hread)
      rw [Nat.add_zero] at htook
      obtain ⟨_, s₃, hrest, h⟩ := bind_eq_ok.mp h
      obtain ⟨rfl, rfl⟩ := pure_eq_ok.mp h
      obtain ⟨rest, htook₃, rfl, hd₃⟩ := objects_tree fuel hrest
      rw [htook.scope] at hd₃
      refine ⟨.more o rest, by simpa [Objects.tokens, Objects.brackets] using htook.trans htook₃,
        ?_, ?_⟩
      · rw [htook.scope, htook.blanks]
        rfl
      · rw [Objects.tokens, Scope.declares_append, Scope.declares_cons]
        exact ⟨hd₁, Scope.declares_token rfl, hd₃⟩
    · rw [if_neg hcomma] at h
      obtain ⟨rfl, rfl⟩ := pure_eq_ok.mp h
      exact ⟨.one o, htook₁, rfl, hd₁⟩

theorem object_tree (fuel : Nat) {s s' : State} {node : Term} {ts : List Triple}
    (h : object fuel s = .ok ((node, ts), s')) : ∃ o : Object,
    Took o.tokens o.brackets s s' ∧ node = o.node s.scope s.blanks ∧
      ts = o.inner s.scope s.blanks ∧ s.scope.Declares o.tokens := by
  match fuel with
  | 0 =>
    rw [object] at h
    exact absurd h stopped_ne_ok
  | fuel + 1 =>
    rw [object, peek_bind] at h
    by_cases hopen : s.ahead.head? = some .lbracket
    · rw [if_pos hopen] at h
      obtain ⟨b, htook, rfl, rfl, hd⟩ := bracket_tree fuel h
      exact ⟨.bracket b, htook, rfl, rfl, hd⟩
    · rw [if_neg hopen] at h
      obtain ⟨_, s₁, hterm, h⟩ := bind_eq_ok.mp h
      obtain ⟨heq, rfl⟩ := pure_eq_ok.mp h
      cases heq
      obtain ⟨w, htook, rfl, hd⟩ := term_tree hterm
      exact ⟨.term w, htook, rfl, rfl, hd⟩

theorem bracket_tree (fuel : Nat) {s s' : State} {node : Term} {ts : List Triple}
    (h : bracket fuel s = .ok ((node, ts), s')) : ∃ b : Bracket,
    Took b.tokens b.brackets s s' ∧ node = bracketNode s.blanks ∧
      ts = b.triples s.scope s.blanks ∧ s.scope.Declares b.tokens := by
  match fuel with
  | 0 =>
    rw [bracket] at h
    exact absurd h stopped_ne_ok
  | fuel + 1 =>
    rw [bracket] at h
    obtain ⟨_, s₁, hopen, h⟩ := bind_eq_ok.mp h
    obtain ⟨_, s₂, hfresh, h⟩ := bind_eq_ok.mp h
    obtain ⟨_, hfresh', htook₂⟩ := freshBlank_eq s₁
    rw [hfresh'] at hfresh
    cases hfresh
    have htook := (took_of_expect hopen).trans htook₂
    rw [(took_of_expect hopen).blanks, Nat.add_zero, peek_bind] at h
    by_cases hclose : s₂.ahead.head? = some .rbracket
    · rw [if_pos hclose] at h
      obtain ⟨_, s₃, hread, h⟩ := bind_eq_ok.mp h
      obtain ⟨heq, rfl⟩ := pure_eq_ok.mp h
      cases heq
      exact ⟨.empty, htook.trans (took_of_seen hclose hread), rfl, rfl,
        Scope.declares_cons.mpr ⟨Scope.declares_token rfl, Scope.declares_token rfl⟩⟩
    · rw [if_neg hclose] at h
      obtain ⟨_, s₃, hstated, h⟩ := bind_eq_ok.mp h
      obtain ⟨_, s₄, hread, h⟩ := bind_eq_ok.mp h
      obtain ⟨heq, rfl⟩ := pure_eq_ok.mp h
      cases heq
      obtain ⟨p, htook₃, rfl, hd⟩ := properties_tree fuel hstated
      rw [htook.scope] at hd
      refine ⟨.stating p, ?_, rfl, ?_, ?_⟩
      · simpa [Bracket.tokens, Bracket.brackets] using
          (htook.trans htook₃).trans (took_of_expect hread)
      · rw [htook.scope, htook.blanks]
        rfl
      · rw [Bracket.tokens, List.cons_append, Scope.declares_cons, Scope.declares_append]
        exact ⟨Scope.declares_token rfl, hd, Scope.declares_token rfl⟩

end

/-! ### Sentences and formulas -/

/-- A sentence was read. -/
def FoundSentence (s s' : State) (ts : List Triple) : Prop :=
  ∃ sentence : Sentence, Took sentence.tokens sentence.brackets s s' ∧
    ts = sentence.triples s.scope s.blanks ∧ s.scope.Declares sentence.tokens

theorem triples_tree {ts : List Triple} (h : triples fuel s = .ok (ts, s')) :
    FoundSentence s s' ts := by
  rw [triples, peek_bind] at h
  by_cases hopen : s.ahead.head? = some .lbracket
  · rw [if_pos hopen] at h
    obtain ⟨⟨_, _⟩, s₁, hbracket, h⟩ := bind_eq_ok.mp h
    obtain ⟨b, htook, rfl, rfl, hd⟩ := bracket_tree fuel hbracket
    obtain ⟨next, _, hpeek, h⟩ := bind_eq_ok.mp h
    rw [peek_eq] at hpeek
    cases hpeek
    have halone (h : (pure (b.triples s.scope s.blanks) : Read (List Triple)) s₁ = .ok (ts, s')) :
        FoundSentence s s' ts := by
      obtain ⟨rfl, rfl⟩ := pure_eq_ok.mp h
      exact ⟨.bracket b, htook, rfl, hd⟩
    have hsaid (h : (properties fuel (bracketNode s.blanks) >>= fun said =>
        pure (b.triples s.scope s.blanks ++ said)) s₁ = .ok (ts, s')) : FoundSentence s s' ts := by
      obtain ⟨_, s₂, hproperties, h⟩ := bind_eq_ok.mp h
      obtain ⟨rfl, rfl⟩ := pure_eq_ok.mp h
      obtain ⟨p, htook₂, rfl, hd₂⟩ := properties_tree fuel hproperties
      rw [htook.scope] at hd₂
      refine ⟨.bracketSaid b p, htook.trans htook₂, ?_, Scope.declares_append.mpr ⟨hd, hd₂⟩⟩
      rw [htook.scope, htook.blanks]
      rfl
    cases hnext : s₁.ahead.head? with
    | none =>
      rw [hnext] at h
      exact hsaid h
    | some t =>
      rw [hnext] at h
      cases t with
      | dot | rbrace => exact halone h
      | _ => exact hsaid h
  · rw [if_neg hopen] at h
    obtain ⟨_, s₁, hterm, h⟩ := bind_eq_ok.mp h
    obtain ⟨w, htook, rfl, hd⟩ := term_tree hterm
    obtain ⟨p, htook₂, rfl, hd₂⟩ := properties_tree fuel h
    rw [htook.scope] at hd₂
    refine ⟨.said w p, by simpa [Sentence.tokens, Sentence.brackets] using htook.trans htook₂, ?_,
      Scope.declares_append.mpr ⟨hd, hd₂⟩⟩
    rw [htook.scope, htook.blanks]
    rfl

/-- The rest of a formula was read, its brace included. -/
def FoundBlock (s s' : State) (ts : List Triple) : Prop :=
  ∃ b : Block, Took (b.tokens ++ [.rbrace]) b.brackets s s' ∧ ts = b.triples s.scope s.blanks ∧
    s.scope.Declares b.tokens

theorem sentenceRest_tree {ts : List Triple}
    (ih : ∀ {s : State} {ts : List Triple}, formulaRest fuel s = .ok (ts, s') → FoundBlock s s' ts)
    (h : sentenceRest fuel s = .ok (ts, s')) : FoundBlock s s' ts := by
  rw [sentenceRest] at h
  obtain ⟨_, s₁, hstated, h⟩ := bind_eq_ok.mp h
  obtain ⟨sentence, htook, rfl, hd⟩ := triples_tree hstated
  have hrest {t : Token} (hnext : s₁.ahead.head? = some t) (ht : t = .dot ∨ t = .rbrace)
      (h : (formulaRest fuel >>= fun ts => pure (sentence.triples s.scope s.blanks ++ ts)) s₁ =
        .ok (ts, s')) : FoundBlock s s' ts := by
    obtain ⟨_, s₂, hrest, h⟩ := bind_eq_ok.mp h
    obtain ⟨rfl, rfl⟩ := pure_eq_ok.mp h
    obtain ⟨b, htook₂, rfl, hd₂⟩ := ih hrest
    rw [htook.scope] at hd₂
    obtain ⟨others, hahead⟩ := List.head?_eq_some_iff.mp hnext
    have hends : EndsSentence (b.tokens ++ .rbrace :: s₂.ahead) :=
      ⟨t, others, by rw [← hahead, htook₂.ahead]; simp, ht⟩
    obtain ⟨b', htokens, hbrackets, htriples⟩ := Block.after sentence hends
    refine ⟨b', ?_, ?_, ?_⟩
    · rw [htokens, hbrackets, List.append_assoc]
      exact htook.trans htook₂
    · rw [htriples, htook.scope, htook.blanks]
    · rw [htokens, Scope.declares_append]
      exact ⟨hd, hd₂⟩
  rw [peek_bind] at h
  cases hnext : s₁.ahead.head? with
  | none =>
    rw [hnext] at h
    exact absurd h unexpected_ne_ok
  | some t =>
    rw [hnext] at h
    cases t with
    | dot => exact hrest hnext (.inl rfl) h
    | rbrace => exact hrest hnext (.inr rfl) h
    | _ => exact absurd h unexpected_ne_ok

theorem formulaRest_tree {ts : List Triple} (h : formulaRest fuel s = .ok (ts, s')) :
    FoundBlock s s' ts := by
  induction fuel generalizing s ts with
  | zero => exact absurd h stopped_ne_ok
  | succ fuel ih =>
    cases hnext : s.ahead.head? with
    | none =>
      rw [formulaRest, peek_bind, hnext] at h
      exact absurd h stopped_ne_ok
    | some t =>
      by_cases hbrace : t = .rbrace
      · subst hbrace
        rw [formulaRest_rbrace hnext] at h
        obtain ⟨_, s₁, hread, h⟩ := bind_eq_ok.mp h
        obtain ⟨rfl, rfl⟩ := pure_eq_ok.mp h
        exact ⟨.done, took_of_seen hnext hread, rfl, Scope.declares_nil⟩
      by_cases hdot : t = .dot
      · subst hdot
        rw [formulaRest_dot hnext] at h
        obtain ⟨_, s₁, hread, h⟩ := bind_eq_ok.mp h
        obtain ⟨b, htook, rfl, hd⟩ := ih h
        have htook₁ := took_of_seen hnext hread
        rw [htook₁.scope] at hd
        refine ⟨.dot b, by simpa [Block.tokens, Block.brackets] using htook₁.trans htook, ?_,
          Scope.declares_cons.mpr ⟨Scope.declares_token rfl, hd⟩⟩
        rw [htook₁.scope, htook₁.blanks]
        rfl
      · rw [formulaRest_sentence hnext hbrace hdot] at h
        exact sentenceRest_tree ih h

theorem formula_tree {ts : List Triple} (h : formula fuel s = .ok (ts, s')) :
    ∃ b : Block, Took b.formula b.brackets s s' ∧ ts = b.triples s.scope s.blanks ∧
      s.scope.Declares b.formula := by
  rw [formula] at h
  obtain ⟨_, s₁, hopen, h⟩ := bind_eq_ok.mp h
  have htook₁ := took_of_expect hopen
  obtain ⟨b, htook₂, rfl, hd⟩ := formulaRest_tree h
  rw [htook₁.scope] at hd
  refine ⟨b, by simpa [Block.formula] using htook₁.trans htook₂, ?_, ?_⟩
  · rw [htook₁.scope, htook₁.blanks]
    rfl
  · rw [Block.formula, List.cons_append, Scope.declares_cons, Scope.declares_append]
    exact ⟨Scope.declares_token rfl, hd, Scope.declares_token rfl⟩

theorem arrow_tree {reversed : Bool} (h : arrow fuel s = .ok (reversed, s')) :
    ∃ a : Arrow, Took a.tokens 0 s s' ∧ reversed = a.reversed ∧ s.scope.Declares a.tokens ∧
      a.Implies s.scope := by
  by_cases himplies : s.ahead.head? = some .implies
  · rw [arrow, peek_bind, himplies] at h
    obtain ⟨_, s₁, hread, h⟩ := bind_eq_ok.mp h
    obtain ⟨rfl, rfl⟩ := pure_eq_ok.mp h
    exact ⟨.implies, took_of_seen himplies hread, rfl, Scope.declares_token rfl, trivial⟩
  by_cases himpliedBy : s.ahead.head? = some .impliedBy
  · rw [arrow, peek_bind, himpliedBy] at h
    obtain ⟨_, s₁, hread, h⟩ := bind_eq_ok.mp h
    obtain ⟨rfl, rfl⟩ := pure_eq_ok.mp h
    exact ⟨.impliedBy, took_of_seen himpliedBy hread, rfl, Scope.declares_token rfl, trivial⟩
  · rw [arrow_term himplies himpliedBy, arrowTerm] at h
    obtain ⟨found, s₁, hterm, h⟩ := bind_eq_ok.mp h
    obtain ⟨w, htook, hvalue, hd⟩ := term_tree hterm
    by_cases hsame : found = .iri Vocabulary.Swap.logImplies
    · rw [if_neg (fun hne => hne hsame)] at h
      obtain ⟨rfl, rfl⟩ := pure_eq_ok.mp h
      exact ⟨.term w, htook, rfl, hd, hvalue.symm.trans hsame⟩
    · rw [if_pos hsame] at h
      exact absurd h stopped_ne_ok

theorem iriRef_tree {found : String} (h : iriRef s = .ok (found, s')) :
    ∃ iri, Took [.iriRef iri] 0 s s' ∧ found = s.scope.resolve iri := by
  rw [iriRef] at h
  obtain ⟨t, s₁, hread, h⟩ := bind_eq_ok.mp h
  cases t with
  | none => exact absurd h unexpected_ne_ok
  | some t =>
    have htook := took_of_advance hread
    cases t with
    | iriRef iri =>
      change resolve iri s₁ = _ at h
      rw [resolve_eq, htook.scope] at h
      cases h
      exact ⟨iri, htook, rfl⟩
    | _ => exact absurd h unexpected_ne_ok

/-! ### Statements and documents -/

theorem statement_tree_declare {read read' : Ruleset}
    (hseen : s.ahead.head? = some .prefixKeyword) (h : statement fuel read s = .ok (read', s')) :
    ∃ space iri, Stated (.declare space iri) s s' ∧ read' = read := by
  rw [statement, peek_bind, hseen] at h
  obtain ⟨_, s₁, hkeyword, h⟩ := bind_eq_ok.mp h
  obtain ⟨t, s₂, hname, h⟩ := bind_eq_ok.mp h
  cases t with
  | none => exact absurd h unexpected_ne_ok
  | some t =>
    have htook := (took_of_seen hseen hkeyword).trans (took_of_advance hname)
    cases t with
    | prefixedName space name =>
      by_cases hempty : name = ""
      · subst hempty
        obtain ⟨_, s₃, hiri, h⟩ := bind_eq_ok.mp h
        obtain ⟨_, s₄, hdot, h⟩ := bind_eq_ok.mp h
        obtain ⟨_, s₅, hmodify, h⟩ := bind_eq_ok.mp h
        obtain ⟨rfl, rfl⟩ := pure_eq_ok.mp h
        obtain ⟨iri, htook₃, rfl⟩ := iriRef_tree hiri
        have hall := (htook.trans htook₃).trans (took_of_expect hdot)
        cases hmodify
        refine ⟨space, iri, ⟨hall.read, ?_, hall.blanks⟩, rfl⟩
        have hprefixes : s₄.prefixes = s.prefixes := congrArg Scope.prefixes hall.scope
        have hbase : s₄.base = s.base := congrArg Scope.base hall.scope
        rw [State.scope, Statement.scope, htook.scope]
        simp only [hprefixes, hbase]
        rfl
      · simp only [Option.some.injEq, Token.prefixedName.injEq, hempty, and_false, imp_self,
          implies_true] at h
        exact absurd h unexpected_ne_ok
    | _ => exact absurd h unexpected_ne_ok

theorem statement_tree_base {read read' : Ruleset}
    (hseen : s.ahead.head? = some .baseKeyword) (h : statement fuel read s = .ok (read', s')) :
    ∃ iri, Stated (.base iri) s s' ∧ read' = read := by
  rw [statement, peek_bind, hseen] at h
  obtain ⟨_, s₁, hkeyword, h⟩ := bind_eq_ok.mp h
  obtain ⟨_, s₂, hiri, h⟩ := bind_eq_ok.mp h
  obtain ⟨_, s₃, hdot, h⟩ := bind_eq_ok.mp h
  obtain ⟨_, s₄, hmodify, h⟩ := bind_eq_ok.mp h
  obtain ⟨rfl, rfl⟩ := pure_eq_ok.mp h
  have htook := took_of_seen hseen hkeyword
  obtain ⟨iri, htook₂, rfl⟩ := iriRef_tree hiri
  have hall := (htook.trans htook₂).trans (took_of_expect hdot)
  cases hmodify
  refine ⟨iri, ⟨hall.read, ?_, hall.blanks⟩, rfl⟩
  have hprefixes : s₃.prefixes = s.prefixes := congrArg Scope.prefixes hall.scope
  rw [State.scope, Statement.scope, htook.scope]
  simp only [hprefixes]
  rfl

/-- A statement was read. -/
def FoundStatement (s s' : State) (read read' : Ruleset) : Prop :=
  ∃ st : Statement, Stated st s s' ∧ read' = st.adds s read ∧ st.Admissible s.scope s.blanks

theorem statement_tree_rule {read read' : Ruleset}
    (hseen : s.ahead.head? = some .lbrace) (h : statement fuel read s = .ok (read', s')) :
    FoundStatement s s' read read' := by
  obtain ⟨others, hahead⟩ := List.head?_eq_some_iff.mp hseen
  rw [statement, peek_bind, hseen] at h
  obtain ⟨_, _, hplace, h⟩ := bind_eq_ok.mp h
  rw [here_eq hahead] at hplace
  cases hplace
  obtain ⟨_, s₁, hfirst, h⟩ := bind_eq_ok.mp h
  obtain ⟨_, s₂, harrow, h⟩ := bind_eq_ok.mp h
  obtain ⟨_, s₃, hsecond, h⟩ := bind_eq_ok.mp h
  obtain ⟨_, s₄, hdot, h⟩ := bind_eq_ok.mp h
  obtain ⟨rfl, rfl⟩ := pure_eq_ok.mp h
  obtain ⟨first, htook₁, rfl, hd₁⟩ := formula_tree hfirst
  obtain ⟨a, htook₂, rfl, hd₂, himplies⟩ := arrow_tree harrow
  obtain ⟨second, htook₃, rfl, hd₃⟩ := formula_tree hsecond
  have htook := htook₁.trans htook₂
  rw [htook.scope] at hd₃
  rw [htook₁.scope] at hd₂ himplies
  have hd : s.scope.Declares (Statement.rule first a second).tokens := by
    simp only [Statement.tokens, Scope.declares_append]
    exact ⟨⟨⟨hd₁, hd₂⟩, hd₃⟩, Scope.declares_token rfl⟩
  refine ⟨.rule first a second, .of_took ((htook.trans htook₃).trans (took_of_expect hdot)) rfl, ?_,
    hd, himplies⟩
  simp only [Statement.adds, Statement.triples, List.append_nil, Statement.rules, htook.scope,
    htook.blanks]
  cases a <;> rfl

theorem factsRest_tree {read read' : Ruleset} (h : factsRest fuel read s = .ok (read', s')) :
    FoundStatement s s' read read' := by
  rw [factsRest] at h
  obtain ⟨_, s₁, hread, h⟩ := bind_eq_ok.mp h
  obtain ⟨_, s₂, hdot, h⟩ := bind_eq_ok.mp h
  obtain ⟨sentence, htook, rfl, hd⟩ := triples_tree hread
  cases hfind : (sentence.triples s.scope s.blanks).find? Triple.hasVariables with
  | some fact =>
    rw [hfind] at h
    exact absurd h stopped_ne_ok
  | none =>
    rw [hfind] at h
    obtain ⟨rfl, rfl⟩ := pure_eq_ok.mp h
    refine ⟨.facts sentence, .of_took (htook.trans (took_of_expect hdot)) rfl, ?_, hd, ?_⟩
    · simp only [Statement.adds, Statement.rules, List.append_nil]
      rfl
    · exact fun t ht => by simpa using List.find?_eq_none.mp hfind t ht

theorem statement_tree {read read' : Ruleset} (hmore : s.ahead ≠ [])
    (h : statement fuel read s = .ok (read', s')) : FoundStatement s s' read read' := by
  obtain ⟨t, others, hahead⟩ := List.exists_cons_of_ne_nil hmore
  have hseen : s.ahead.head? = some t := by rw [hahead, List.head?_cons]
  by_cases hspace : t = .prefixKeyword
  · obtain ⟨space, iri, hstated, rfl⟩ := statement_tree_declare (hspace ▸ hseen) h
    exact ⟨_, hstated, (Statement.adds_nothing rfl rfl).symm, trivial⟩
  by_cases hbase : t = .baseKeyword
  · obtain ⟨iri, hstated, rfl⟩ := statement_tree_base (hbase ▸ hseen) h
    exact ⟨_, hstated, (Statement.adds_nothing rfl rfl).symm, trivial⟩
  by_cases hbrace : t = .lbrace
  · exact statement_tree_rule (hbrace ▸ hseen) h
  · rw [statement_facts hseen hspace hbase hbrace] at h
    exact factsRest_tree h

theorem statements_tree {inner : Nat} {read read' : Ruleset} (hfuel : s.rest.length ≤ fuel)
    (h : statements inner fuel read s = .ok (read', s')) : ∃ d : Document,
    d.tokens = s.ahead ∧ d.Admissible s.scope s.blanks ∧ read' = d.adds s read ∧
      s'.prefixes = (d.meaning s).prefixes := by
  induction fuel generalizing s read with
  | zero =>
    obtain ⟨rfl, rfl⟩ := pure_eq_ok.mp h
    have hempty : s.ahead = [] := by
      rw [State.ahead, List.eq_nil_of_length_eq_zero (Nat.le_zero.mp hfuel), List.map_nil]
    exact ⟨[], hempty.symm, trivial, (Document.adds_nil s read).symm, rfl⟩
  | succ fuel ih =>
    rw [statements, peek_bind] at h
    by_cases hmore : s.ahead = []
    · rw [hmore] at h
      obtain ⟨rfl, rfl⟩ := pure_eq_ok.mp h
      exact ⟨[], hmore.symm, trivial, (Document.adds_nil s read).symm, rfl⟩
    · obtain ⟨t, others, hahead⟩ := List.exists_cons_of_ne_nil hmore
      rw [hahead] at h
      obtain ⟨_, s₁, hstatement, h⟩ := bind_eq_ok.mp h
      obtain ⟨st, hstated, rfl, hadmissible⟩ := statement_tree hmore hstatement
      have hshorter : s.rest.length = st.tokens.length + s₁.rest.length := hstated.took.length_rest
      obtain ⟨u, others', htokens⟩ := st.tokens_eq
      rw [htokens, List.length_cons] at hshorter
      obtain ⟨rest, hrest, hadmissible', rfl, hprefixes⟩ := ih (by omega) h
      rw [hstated.scope, hstated.blanks] at hadmissible'
      refine ⟨st :: rest, ?_, ⟨hadmissible, hadmissible'⟩, (Document.adds_cons hstated read).symm, ?_⟩
      · rw [hstated.took.ahead, Document.tokens, List.flatMap_cons]
        exact congrArg (st.tokens ++ ·) hrest
      · rw [hprefixes, Document.meaning_cons hstated]

end Read

/-- Tokens that are read are those of a document. -/
theorem document_of_parseTokens {prefixes : SortedMap String String}
    {tokens : List (Token × Position)} {finish : Position} {r : Ruleset}
    (h : parseTokens prefixes tokens finish = .ok r) : ∃ d : Document,
    d.tokens = tokens.map Prod.fst ∧ d.Admissible ⟨prefixes, none⟩ 0 ∧
      r = d.ruleset ⟨prefixes, none⟩ 0 (tokens.map Prod.snd) := by
  cases hread : (Read.document (2 * tokens.length + 2)).run (.start prefixes tokens finish) with
  | error fault =>
    rw [parseTokens, hread] at h
    cases h
  | ok read =>
    obtain ⟨read, s'⟩ := read
    rw [parseTokens, hread] at h
    cases h
    obtain ⟨d, htokens, hadmissible, rfl, hprefixes⟩ := Read.statements_tree
      (show tokens.length ≤ 2 * tokens.length + 2 by omega) hread
    refine ⟨d, htokens, hadmissible, ?_⟩
    simp only [Document.adds, hprefixes, List.nil_append]
    rfl

end HornReasoner.N3
