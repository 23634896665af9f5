import HornReasoner.Proofs.N3.Trees

/-! What the parser accepts.

The fuel of a reader only bounds its chains of calls. Two runs agree, faults included, if both have
enough of it: one call for each token and one more between the layers of the grammar, where what a
phrase takes from the tokens is known from its tree. So reading ends, and it ends well on the tokens
of an admissible document only (`parseTokens_accepts_documents`). -/
namespace HornReasoner.N3

namespace Read
variable {s s' : State} {fuel fuel' : Nat}

/-- Runs agree if their first steps do and, where these succeed, the rest does. -/
theorem bind_congr {α β : Type} {x x' : Read α} {f f' : α → Read β} (hx : x s = x' s)
    (hf : ∀ a s', x s = .ok (a, s') → f a s' = f' a s') : (x >>= f) s = (x' >>= f') s := by
  show (x s >>= fun e => f e.1 e.2) = (x' s >>= fun e => f' e.1 e.2)
  rw [← hx]
  cases h : x s with
  | error fault => rfl
  | ok e => exact hf e.1 e.2 h

theorem ahead_eq_nil : s.ahead = [] ↔ s.rest.length = 0 := by
  rw [State.ahead, List.map_eq_nil_iff, List.length_eq_zero_iff]

theorem bind_of_error {α β : Type} {x : Read α} {f : α → Read β} {fault : Fault}
    (h : x s = .error fault) : (x >>= f) s = .error fault := by
  show (x s >>= fun e => f e.1 e.2) = _
  rw [h]
  rfl

/-- The fault of a phrase that should begin where the text ends. -/
def ended (s : State) : Fault :=
  ⟨match s.rest with
    | (_, position) :: _ => position
    | [] => s.finish, .unexpected .term none⟩

/-! ### Terms and verbs -/

theorem term_ended (fuel : Nat) (h : s.ahead = []) : term fuel s = .error (ended s) := by
  cases fuel with
  | zero => rfl
  | succ fuel =>
    rw [term, bind_of_ok (advance_nil h)]
    rfl

theorem verb_ended (fuel : Nat) (h : s.ahead = []) : verb fuel s = .error (ended s) := by
  rw [verb, peek_bind, h]
  exact term_ended fuel h

/-- The number of tokens left after a token was read. -/
theorem length_of_seen {t : Token} {found : Option Token} (hseen : s.ahead.head? = some t)
    (h : advance s = .ok (found, s')) : s.rest.length = s'.rest.length + 1 := by
  have := (took_of_seen hseen h).length_rest
  rw [List.length_singleton] at this
  omega

theorem term_fuel (h : s.rest.length ≤ fuel) (h' : s.rest.length ≤ fuel') :
    term fuel s = term fuel' s := by
  induction fuel generalizing s fuel' with
  | zero =>
    have hnil := ahead_eq_nil.mpr (Nat.le_zero.mp h)
    rw [term_ended 0 hnil, term_ended fuel' hnil]
  | succ fuel ih =>
    cases fuel' with
    | zero =>
      have hnil := ahead_eq_nil.mpr (Nat.le_zero.mp h')
      rw [term_ended 0 hnil, term_ended _ hnil]
    | succ fuel' =>
      rw [term, term]
      refine bind_congr rfl fun found s₁ hread => ?_
      cases found with
      | none => rfl
      | some t =>
        have hlength := (took_of_advance hread).length_rest
        rw [List.length_singleton] at hlength
        cases t with
        | string body =>
          refine bind_congr rfl fun next s₂ hpeek => ?_
          rw [peek_eq] at hpeek
          cases hpeek
          cases hnext : s₁.ahead.head? with
          | none => rfl
          | some t =>
            cases t with
            | doubleCaret =>
              refine bind_congr rfl fun _ s₂ hmark => ?_
              have := length_of_seen hnext hmark
              exact bind_congr (ih (by omega) (by omega)) fun _ _ _ => rfl
            | _ => rfl
        | _ => rfl

theorem verb_fuel (h : s.rest.length ≤ fuel) (h' : s.rest.length ≤ fuel') :
    verb fuel s = verb fuel' s := by
  rw [verb, verb]
  refine bind_congr rfl fun next s₁ hpeek => ?_
  rw [peek_eq] at hpeek
  cases hpeek
  have hterm := term_fuel h h'
  cases s.ahead.head? with
  | none => exact hterm
  | some t => cases t <;> first | exact hterm | rfl

theorem semicolons_ended (fuel : Nat) (h : s.ahead = []) : semicolons fuel s = .ok ((), s) := by
  cases fuel with
  | zero => rfl
  | succ fuel =>
    rw [semicolons, peek_bind, h]
    rfl

theorem semicolons_fuel (h : s.rest.length ≤ fuel) (h' : s.rest.length ≤ fuel') :
    semicolons fuel s = semicolons fuel' s := by
  induction fuel generalizing s fuel' with
  | zero =>
    have hnil := ahead_eq_nil.mpr (Nat.le_zero.mp h)
    rw [semicolons_ended 0 hnil, semicolons_ended fuel' hnil]
  | succ fuel ih =>
    cases fuel' with
    | zero =>
      have hnil := ahead_eq_nil.mpr (Nat.le_zero.mp h')
      rw [semicolons_ended 0 hnil, semicolons_ended _ hnil]
    | succ fuel' =>
      rw [semicolons, semicolons, peek_bind, peek_bind]
      by_cases hseen : s.ahead.head? = some .semicolon
      · rw [if_pos hseen, if_pos hseen]
        refine bind_congr rfl fun _ s₁ hread => ?_
        have := length_of_seen hseen hread
        exact ih (by omega) (by omega)
      · rw [if_neg hseen, if_neg hseen]

/-! ### Verbs and objects -/

theorem properties_ended (fuel : Nat) (subject : Term) (h : s.ahead = []) :
    properties fuel subject s = .error (ended s) := by
  cases fuel with
  | zero =>
    rw [properties]
    rfl
  | succ fuel => rw [properties, bind_of_error (verb_ended fuel h)]

theorem object_ended (fuel : Nat) (h : s.ahead = []) : object fuel s = .error (ended s) := by
  cases fuel with
  | zero =>
    rw [object]
    rfl
  | succ fuel =>
    rw [object, peek_bind, h]
    exact bind_of_error (term_ended fuel h)

theorem verb_shorter {v : Term} (h : verb fuel s = .ok (v, s')) :
    s'.rest.length < s.rest.length := by
  obtain ⟨w, htook, _⟩ := verb_tree h
  have := htook.length_rest
  have := w.length_pos
  omega

theorem term_shorter {v : Term} (h : term fuel s = .ok (v, s')) :
    s'.rest.length < s.rest.length := by
  obtain ⟨w, htook, _⟩ := term_tree h
  have := htook.length_rest
  have : 0 < w.tokens.length := Verb.length_pos (.term w)
  omega

theorem bracket_shorter {node : Term × List Triple} (h : bracket fuel s = .ok (node, s')) :
    s'.rest.length < s.rest.length := by
  obtain ⟨b, htook, _⟩ := bracket_tree fuel h
  obtain ⟨rest, htokens⟩ := b.tokens_eq
  have := htook.length_rest
  rw [htokens, List.length_cons] at this
  omega

theorem object_shorter {node : Term × List Triple} (h : object fuel s = .ok (node, s')) :
    s'.rest.length < s.rest.length := by
  cases fuel with
  | zero =>
    rw [object] at h
    exact absurd h stopped_ne_ok
  | succ fuel =>
    rw [object, peek_bind] at h
    by_cases hopen : s.ahead.head? = some .lbracket
    · rw [if_pos hopen] at h
      exact bracket_shorter h
    · rw [if_neg hopen] at h
      obtain ⟨_, s₁, hterm, h⟩ := bind_eq_ok.mp h
      obtain ⟨_, rfl⟩ := pure_eq_ok.mp h
      exact term_shorter hterm

theorem objects_shorter {subject verb : Term} {ts : List Triple}
    (h : objects fuel subject verb s = .ok (ts, s')) : s'.rest.length ≤ s.rest.length := by
  obtain ⟨os, htook, _⟩ := objects_tree fuel h
  have := htook.length_rest
  omega

theorem semicolons_shorter (h : semicolons fuel s = .ok ((), s')) :
    s'.rest.length ≤ s.rest.length := by
  obtain ⟨k, htook⟩ := semicolons_tree h
  have := htook.length_rest
  omega

mutual

theorem properties_fuel (fuel fuel' : Nat) {s : State} (subject : Term)
    (h : 2 * s.rest.length ≤ fuel) (h' : 2 * s.rest.length ≤ fuel') :
    properties fuel subject s = properties fuel' subject s := by
  obtain hnone | hsome := Nat.eq_zero_or_pos s.rest.length
  · have hnil := ahead_eq_nil.mpr hnone
    rw [properties_ended fuel subject hnil, properties_ended fuel' subject hnil]
  match fuel, fuel' with
  | 0, _ | _, 0 => omega
  | fuel + 1, fuel' + 1 =>
    rw [properties, properties]
    refine bind_congr (verb_fuel (by omega) (by omega)) fun _ s₁ hverb => ?_
    have := verb_shorter hverb
    refine bind_congr (objects_fuel fuel fuel' subject _ (by omega) (by omega)) fun _ s₂ hobjects => ?_
    have := objects_shorter hobjects
    rw [peek_bind, peek_bind]
    by_cases hsemi : s₂.ahead.head? = some .semicolon
    · rw [if_neg (fun hne => hne hsemi), if_neg (fun hne => hne hsemi)]
      refine bind_congr (semicolons_fuel (by omega) (by omega)) fun _ s₃ hskip => ?_
      have := semicolons_shorter hskip
      refine bind_congr rfl fun ended s₄ hend => ?_
      cases atEnd_eq_ok hend
      cases ended with
      | true => rfl
      | false =>
        exact bind_congr (properties_fuel fuel fuel' subject (by omega) (by omega)) fun _ _ _ => rfl
    · rw [if_pos hsemi, if_pos hsemi]

theorem objects_fuel (fuel fuel' : Nat) {s : State} (subject verb : Term)
    (h : 2 * s.rest.length + 1 ≤ fuel) (h' : 2 * s.rest.length + 1 ≤ fuel') :
    objects fuel subject verb s = objects fuel' subject verb s := by
  match fuel, fuel' with
  | 0, _ | _, 0 => omega
  | fuel + 1, fuel' + 1 =>
    rw [objects, objects]
    refine bind_congr (object_fuel fuel fuel' (by omega) (by omega)) fun found s₁ hobject => ?_
    have := object_shorter hobject
    obtain ⟨_, _⟩ := found
    refine bind_congr rfl fun next s₂ hpeek => ?_
    rw [peek_eq] at hpeek
    cases hpeek
    by_cases hcomma : s₁.ahead.head? = some .comma
    · rw [if_pos hcomma, if_pos hcomma]
      refine bind_congr rfl fun _ s₃ hread => ?_
      have := length_of_seen hcomma hread
      exact bind_congr (objects_fuel fuel fuel' subject verb (by omega) (by omega)) fun _ _ _ => rfl
    · rw [if_neg hcomma, if_neg hcomma]

theorem object_fuel (fuel fuel' : Nat) {s : State}
    (h : 2 * s.rest.length ≤ fuel) (h' : 2 * s.rest.length ≤ fuel') :
    object fuel s = object fuel' s := by
  obtain hnone | hsome := Nat.eq_zero_or_pos s.rest.length
  · have hnil := ahead_eq_nil.mpr hnone
    rw [object_ended fuel hnil, object_ended fuel' hnil]
  match fuel, fuel' with
  | 0, _ | _, 0 => omega
  | fuel + 1, fuel' + 1 =>
    rw [object, object, peek_bind, peek_bind]
    by_cases hopen : s.ahead.head? = some .lbracket
    · rw [if_pos hopen, if_pos hopen]
      exact bracket_fuel fuel fuel' hsome (by omega) (by omega)
    · rw [if_neg hopen, if_neg hopen]
      exact bind_congr (term_fuel (by omega) (by omega)) fun _ _ _ => rfl

theorem bracket_fuel (fuel fuel' : Nat) {s : State} (hsome : 0 < s.rest.length)
    (h : 2 * s.rest.length ≤ fuel + 1) (h' : 2 * s.rest.length ≤ fuel' + 1) :
    bracket fuel s = bracket fuel' s := by
  match fuel, fuel' with
  | 0, _ | _, 0 => omega
  | fuel + 1, fuel' + 1 =>
    rw [bracket, bracket]
    refine bind_congr rfl fun _ s₁ hopen => ?_
    have := (took_of_expect hopen).length_rest
    rw [List.length_singleton] at this
    refine bind_congr rfl fun node s₂ hfresh => ?_
    obtain ⟨_, hfresh', htook⟩ := freshBlank_eq s₁
    rw [hfresh'] at hfresh
    cases hfresh
    have := htook.length_rest
    rw [List.length_nil] at this
    rw [peek_bind, peek_bind]
    by_cases hclose : s₂.ahead.head? = some .rbracket
    · rw [if_pos hclose, if_pos hclose]
    · rw [if_neg hclose, if_neg hclose]
      exact bind_congr (properties_fuel fuel fuel' _ (by omega) (by omega)) fun _ _ _ => rfl

end

/-! ### Sentences and formulas -/

theorem triples_fuel (h : 2 * s.rest.length ≤ fuel) (h' : 2 * s.rest.length ≤ fuel') :
    triples fuel s = triples fuel' s := by
  rw [triples, triples, peek_bind, peek_bind]
  by_cases hopen : s.ahead.head? = some .lbracket
  · have hsome : 0 < s.rest.length := by
      obtain ⟨others, hahead⟩ := List.head?_eq_some_iff.mp hopen
      refine Nat.pos_of_ne_zero fun hnone => ?_
      rw [ahead_eq_nil.mpr hnone] at hahead
      cases hahead
    rw [if_pos hopen, if_pos hopen]
    refine bind_congr (bracket_fuel fuel fuel' hsome (by omega) (by omega)) fun found s₁ hbracket => ?_
    have := bracket_shorter hbracket
    obtain ⟨subject, inner⟩ := found
    refine bind_congr rfl fun next s₂ hpeek => ?_
    rw [peek_eq] at hpeek
    cases hpeek
    have hsaid : (properties fuel subject >>= fun said => pure (inner ++ said) :
        Read (List Triple)) s₁ = (properties fuel' subject >>= fun said => pure (inner ++ said)) s₁ :=
      bind_congr (properties_fuel fuel fuel' subject (by omega) (by omega)) fun _ _ _ => rfl
    cases s₁.ahead.head? with
    | none => exact hsaid
    | some t => cases t <;> first | exact hsaid | rfl
  · rw [if_neg hopen, if_neg hopen]
    refine bind_congr (term_fuel (by omega) (by omega)) fun _ s₁ hterm => ?_
    have := term_shorter hterm
    exact properties_fuel fuel fuel' _ (by omega) (by omega)

theorem triples_shorter {ts : List Triple} (h : triples fuel s = .ok (ts, s')) :
    s'.rest.length < s.rest.length := by
  obtain ⟨sentence, htook, _⟩ := triples_tree h
  have := htook.length_rest
  have := sentence.length_pos
  omega

/-- A formula that is not closed where the text ends. -/
theorem formulaRest_ended (fuel : Nat) (h : s.ahead = []) :
    formulaRest fuel s = .error ⟨(ended s).position, .unterminated⟩ := by
  cases fuel with
  | zero => rfl
  | succ fuel =>
    rw [formulaRest, peek_bind, h]
    rfl

theorem formulaRest_fuel (h : 2 * s.rest.length + 1 ≤ fuel) (h' : 2 * s.rest.length + 1 ≤ fuel') :
    formulaRest fuel s = formulaRest fuel' s := by
  induction fuel generalizing s fuel' with
  | zero => omega
  | succ fuel ih =>
    obtain ⟨fuel', rfl⟩ : ∃ f, fuel' = f + 1 := ⟨fuel' - 1, by omega⟩
    cases hnext : s.ahead.head? with
    | none =>
      have hnil : s.ahead = [] := List.head?_eq_none_iff.mp hnext
      rw [formulaRest_ended _ hnil, formulaRest_ended _ hnil]
    | some t =>
      by_cases hbrace : t = .rbrace
      · subst hbrace
        rw [formulaRest_rbrace hnext, formulaRest_rbrace hnext]
      by_cases hdot : t = .dot
      · subst hdot
        rw [formulaRest_dot hnext, formulaRest_dot hnext]
        refine bind_congr rfl fun _ s₁ hread => ?_
        have := length_of_seen hnext hread
        exact ih (by omega) (by omega)
      · rw [formulaRest_sentence hnext hbrace hdot, formulaRest_sentence hnext hbrace hdot,
          sentenceRest, sentenceRest]
        refine bind_congr (triples_fuel (by omega) (by omega)) fun stated s₁ htriples => ?_
        have := triples_shorter htriples
        have hrest : (formulaRest fuel >>= fun ts => pure (stated ++ ts) : Read (List Triple)) s₁ =
            (formulaRest fuel' >>= fun ts => pure (stated ++ ts)) s₁ :=
          bind_congr (ih (by omega) (by omega)) fun _ _ _ => rfl
        rw [peek_bind, peek_bind]
        cases s₁.ahead.head? with
        | none => rfl
        | some t => cases t <;> first | exact hrest | rfl

theorem formula_fuel (h : 2 * s.rest.length ≤ fuel) (h' : 2 * s.rest.length ≤ fuel') :
    formula fuel s = formula fuel' s := by
  rw [formula, formula]
  refine bind_congr rfl fun _ s₁ hopen => ?_
  have := (took_of_expect hopen).length_rest
  rw [List.length_singleton] at this
  exact formulaRest_fuel (by omega) (by omega)

theorem formula_shorter {ts : List Triple} (h : formula fuel s = .ok (ts, s')) :
    s'.rest.length ≤ s.rest.length := by
  obtain ⟨b, htook, _⟩ := formula_tree h
  have := htook.length_rest
  omega

theorem arrow_fuel (h : s.rest.length ≤ fuel) (h' : s.rest.length ≤ fuel') :
    arrow fuel s = arrow fuel' s := by
  by_cases himplies : s.ahead.head? = some .implies
  · rw [arrow, arrow, peek_bind, peek_bind, himplies]
  by_cases himpliedBy : s.ahead.head? = some .impliedBy
  · rw [arrow, arrow, peek_bind, peek_bind, himpliedBy]
  · rw [arrow_term himplies himpliedBy, arrow_term himplies himpliedBy, arrowTerm, arrowTerm]
    exact bind_congr (term_fuel h h') fun _ _ _ => rfl

theorem arrow_shorter {reversed : Bool} (h : arrow fuel s = .ok (reversed, s')) :
    s'.rest.length ≤ s.rest.length := by
  obtain ⟨a, htook, _⟩ := arrow_tree h
  have := htook.length_rest
  omega

/-! ### Statements and documents -/

theorem statement_fuel (read : Ruleset) (h : 2 * s.rest.length ≤ fuel)
    (h' : 2 * s.rest.length ≤ fuel') : statement fuel read s = statement fuel' read s := by
  cases hnext : s.ahead.head? with
  | none => rw [statement, statement, peek_bind, peek_bind, hnext]
  | some t =>
    by_cases hspace : t = .prefixKeyword
    · rw [statement, statement, peek_bind, peek_bind, hnext, hspace]
    by_cases hbase : t = .baseKeyword
    · rw [statement, statement, peek_bind, peek_bind, hnext, hbase]
    by_cases hbrace : t = .lbrace
    · obtain ⟨others, hahead⟩ := List.head?_eq_some_iff.mp hnext
      rw [statement, statement, peek_bind, peek_bind, hnext, hbrace]
      refine bind_congr rfl fun place s₀ hplace => ?_
      rw [here_eq hahead] at hplace
      cases hplace
      refine bind_congr (formula_fuel h h') fun first s₁ hfirst => ?_
      have := formula_shorter hfirst
      refine bind_congr (arrow_fuel (by omega) (by omega)) fun reversed s₂ harrow => ?_
      have := arrow_shorter harrow
      exact bind_congr (formula_fuel (by omega) (by omega)) fun _ _ _ => rfl
    · rw [statement_facts hnext hspace hbase hbrace, statement_facts hnext hspace hbase hbrace,
        factsRest, factsRest]
      exact bind_congr (triples_fuel h h') fun _ _ _ => rfl

theorem statement_shorter {read read' : Ruleset} (hmore : s.ahead ≠ [])
    (h : statement fuel read s = .ok (read', s')) : s'.rest.length < s.rest.length := by
  obtain ⟨st, hstated, _⟩ := statement_tree hmore h
  obtain ⟨t, rest, htokens⟩ := st.tokens_eq
  have : s.rest.length = st.tokens.length + s'.rest.length := hstated.took.length_rest
  rw [htokens, List.length_cons] at this
  omega

theorem statements_ended (inner fuel : Nat) (read : Ruleset) (h : s.ahead = []) :
    statements inner fuel read s = .ok (read, s) := by
  cases fuel with
  | zero => rfl
  | succ fuel =>
    rw [statements, peek_bind, h]
    rfl

theorem statements_fuel {inner inner' : Nat} (read : Ruleset) (hinner : 2 * s.rest.length ≤ inner)
    (hinner' : 2 * s.rest.length ≤ inner') (h : s.rest.length ≤ fuel) (h' : s.rest.length ≤ fuel') :
    statements inner fuel read s = statements inner' fuel' read s := by
  induction fuel generalizing s fuel' read with
  | zero =>
    have hnil := ahead_eq_nil.mpr (Nat.le_zero.mp h)
    rw [statements_ended _ _ _ hnil, statements_ended _ _ _ hnil]
  | succ fuel ih =>
    by_cases hmore : s.ahead = []
    · rw [statements_ended _ _ _ hmore, statements_ended _ _ _ hmore]
    · have hsome : s.rest.length ≠ 0 := fun hnone => hmore (ahead_eq_nil.mpr hnone)
      obtain ⟨fuel', rfl⟩ : ∃ f, fuel' = f + 1 := ⟨fuel' - 1, by omega⟩
      rw [statements, statements, peek_bind, peek_bind]
      obtain ⟨t, others, hahead⟩ := List.exists_cons_of_ne_nil hmore
      rw [hahead]
      refine bind_congr (statement_fuel read hinner hinner') fun read s₁ hstatement => ?_
      have := statement_shorter hmore hstatement
      exact ih read (by omega) (by omega) (by omega) (by omega)

theorem document_fuel (h : 2 * s.rest.length ≤ fuel) (h' : 2 * s.rest.length ≤ fuel') :
    document fuel s = document fuel' s :=
  statements_fuel {} h h' (by omega) (by omega)

end Read

/-- The parser accepts exactly the tokens of admissible documents, and finds what the document says,
with one rule for each formula statement. It ends: no fuel beyond two calls a token is used up,
whether the tokens are accepted or not. -/
theorem parseTokens_accepts_documents (prefixes : SortedMap String String)
    (tokens : List (Token × Position)) (finish : Position) :
    ((∃ r, parseTokens prefixes tokens finish = .ok r) ↔
      ∃ d : Document, d.tokens = tokens.map Prod.fst ∧ d.Admissible ⟨prefixes, none⟩ 0) ∧
    (∀ d : Document, d.tokens = tokens.map Prod.fst → d.Admissible ⟨prefixes, none⟩ 0 →
      ∃ r, parseTokens prefixes tokens finish = .ok r ∧
        r = d.ruleset ⟨prefixes, none⟩ 0 (tokens.map Prod.snd) ∧
        r.rules.length = d.countP Statement.isRule) ∧
    ∀ fuel, 2 * tokens.length ≤ fuel →
      (Read.document fuel).run (.start prefixes tokens finish) =
        (Read.document (2 * tokens.length + 2)).run (.start prefixes tokens finish) := by
  refine ⟨⟨?_, ?_⟩, ?_, ?_⟩
  · rintro ⟨r, h⟩
    obtain ⟨d, htokens, hadmissible, _⟩ := document_of_parseTokens h
    exact ⟨d, htokens, hadmissible⟩
  · rintro ⟨d, htokens, hadmissible⟩
    exact ⟨_, parseTokens_of_document finish htokens hadmissible⟩
  · intro d htokens hadmissible
    exact ⟨_, parseTokens_of_document finish htokens hadmissible, rfl, d.length_rules _ _ _⟩
  · intro fuel hfuel
    exact Read.document_fuel (s := .start prefixes tokens finish) hfuel (Nat.le_add_right _ 2)

example : ((parse "@prefix : <u> . [ :p :x ] :q 1 ; . { ?x a :B . } => { ?x a :C }.").toOption.map
    (·.rules.length)) = some 1 := by decide +kernel

-- a variable outside formulas
example : ((parse "@prefix : <u> . [ :p ?x ] :q 1 ; . { ?x a :B . } => { ?x a :C }.").toOption.map
    (·.rules.length)) = none := by decide +kernel

end HornReasoner.N3
