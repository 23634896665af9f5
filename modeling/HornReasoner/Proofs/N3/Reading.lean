import HornReasoner.Proofs.N3.Grammar
import HornReasoner.Proofs.Order.Lookup

/-! Phrases are read.

If the tokens ahead are those of a tree, and the next ones cannot belong to it, then its reader takes
exactly these tokens and finds what the tree says, as long as the namespaces it uses are declared. The
induction is on the tree; `Took` is what a reader does to the state. -/
namespace HornReasoner.N3

def State.scope (s : State) : Scope := ⟨s.prefixes, s.base⟩

/-- The tokens still to be read. -/
def State.ahead (s : State) : List Token := s.rest.map Prod.fst

/-- Between two states these tokens are read, this many brackets among them. -/
structure Took (tokens : List Token) (brackets : Nat) (s s' : State) : Prop where
  read : ∃ read, read.map Prod.fst = tokens ∧ s.rest = read ++ s'.rest
  scope : s'.scope = s.scope
  blanks : s'.blanks = s.blanks + brackets

namespace Took
variable {ts us : List Token} {m n : Nat} {s s' s'' : State}

theorem refl (s : State) : Took [] 0 s s := ⟨⟨[], rfl, rfl⟩, rfl, rfl⟩

theorem trans (h : Took ts m s s') (h' : Took us n s' s'') : Took (ts ++ us) (m + n) s s'' := by
  obtain ⟨read, rfl, hrest⟩ := h.read
  obtain ⟨read', rfl, hrest'⟩ := h'.read
  refine ⟨⟨read ++ read', List.map_append, ?_⟩, h'.scope.trans h.scope, ?_⟩
  · rw [hrest, hrest', List.append_assoc]
  · rw [h'.blanks, h.blanks, Nat.add_assoc]

theorem ahead (h : Took ts m s s') : s.ahead = ts ++ s'.ahead := by
  obtain ⟨read, rfl, hrest⟩ := h.read
  rw [State.ahead, hrest, List.map_append, State.ahead]

theorem ahead_eq {following : List Token} (h : Took ts m s s') (hs : s.ahead = ts ++ following) :
    s'.ahead = following :=
  List.append_cancel_left (h.ahead.symm.trans hs)

theorem length_rest (h : Took ts m s s') : s.rest.length = ts.length + s'.rest.length := by
  obtain ⟨read, rfl, hrest⟩ := h.read
  rw [hrest, List.length_append, List.length_map]

theorem rest_eq (h : Took ts m s s') : s'.rest = s.rest.drop ts.length := by
  obtain ⟨read, rfl, hrest⟩ := h.read
  rw [hrest, List.length_map, List.drop_left]

end Took

namespace Read

/-! ### Actions -/

section Actions
variable {α β : Type} {x : Read α} {f : α → Read β} {a : α} {b : β} {s s' s'' : State}

theorem bind_of_ok (h : x s = .ok (a, s')) : (x >>= f) s = f a s' := by
  show (x s >>= fun e => f e.1 e.2) = _
  rw [h]
  rfl

theorem bind_eq_ok : (x >>= f) s = .ok (b, s'') ↔
    ∃ a s', x s = .ok (a, s') ∧ f a s' = .ok (b, s'') := by
  show (x s >>= fun e => f e.1 e.2) = _ ↔ _
  cases x s with
  | error e => exact ⟨fun h => (nomatch h), fun ⟨_, _, h, _⟩ => (nomatch h)⟩
  | ok e => exact ⟨fun h => ⟨e.1, e.2, rfl, h⟩, fun ⟨_, _, h, h'⟩ => by cases h; exact h'⟩

theorem pure_eq_ok {a' : α} : (pure a : Read α) s = .ok (a', s') ↔ a = a' ∧ s = s' := by
  show Except.ok (a, s) = _ ↔ _
  rw [Except.ok.injEq, Prod.mk.injEq]

theorem peek_eq (s : State) : peek s = .ok (s.ahead.head?, s) := by
  show Except.ok (s.rest.head?.map Prod.fst, s) = _
  rw [State.ahead, List.head?_map]

/-- What is seen decides what is done. -/
theorem peek_bind (f : Option Token → Read β) : (peek >>= f) s = f s.ahead.head? s :=
  bind_of_ok (peek_eq s)

theorem advance_nil (h : s.ahead = []) : advance s = .ok (none, s) := by
  have hrest : s.rest = [] := List.map_eq_nil_iff.mp h
  obtain ⟨rest, _, _, _, _, _⟩ := s
  cases hrest
  rfl

theorem advance_cons {t : Token} {following : List Token} (h : s.ahead = t :: following) :
    ∃ s', advance s = .ok (some t, s') ∧ Took [t] 0 s s' := by
  obtain ⟨⟨_, place⟩, rest, hrest, rfl, _⟩ := List.map_eq_cons_iff.mp h
  obtain ⟨_, last, finish, prefixes, base, blanks⟩ := s
  cases hrest
  exact ⟨⟨rest, place, finish, prefixes, base, blanks⟩, rfl, ⟨[(_, place)], rfl, rfl⟩, rfl, rfl⟩

theorem took_of_advance {t : Token} (h : advance s = .ok (some t, s')) : Took [t] 0 s s' := by
  cases hs : s.ahead with
  | nil => rw [advance_nil hs] at h; cases h
  | cons u following =>
    obtain ⟨next, hnext, htook⟩ := advance_cons hs
    rw [hnext] at h
    cases h
    exact htook

theorem fail_ne_ok {place : Position} {cause : Cause} : fail (α := α) place cause s ≠ .ok (a, s') :=
  nofun

theorem unexpected_ne_ok {expected : Expected} {found : Option Token} :
    unexpected (α := α) expected found s ≠ .ok (a, s') := by
  cases found <;> exact nofun

theorem expect_cons {t : Token} {following : List Token} (h : s.ahead = t :: following) :
    ∃ s', expect t s = .ok ((), s') ∧ Took [t] 0 s s' := by
  obtain ⟨next, hnext, htook⟩ := advance_cons h
  refine ⟨next, ?_, htook⟩
  rw [expect, bind_of_ok hnext, if_neg (fun hne => hne rfl)]
  rfl

theorem took_of_expect {t : Token} (h : expect t s = .ok ((), s')) : Took [t] 0 s s' := by
  rw [expect] at h
  obtain ⟨found, next, hnext, h⟩ := bind_eq_ok.mp h
  by_cases hfound : found = some t
  · rw [if_neg (fun hne => hne hfound)] at h
    obtain ⟨_, rfl⟩ := pure_eq_ok.mp h
    exact took_of_advance (hfound ▸ hnext)
  · rw [if_pos hfound] at h
    exact absurd h unexpected_ne_ok

theorem get_bind (f : State → Read β) : ((get : Read State) >>= f) s = f s s := rfl

theorem resolve_eq (iri : String) (s : State) : resolve iri s = .ok (s.scope.resolve iri, s) := by
  rw [resolve, get_bind, Scope.resolve, State.scope]
  cases s.base <;> rfl

theorem expand_eq_ok {space name iri : String} : expand space name s = .ok (iri, s') ↔
    s.scope.prefixes.contains space = true ∧ iri = (Reference.short space name).iri s.scope ∧
      s = s' := by
  rw [expand, get_bind, SortedMap.contains, Reference.iri, State.scope]
  cases s.prefixes.get? space with
  | none =>
    refine ⟨fun h => absurd h fail_ne_ok, fun h => ?_⟩
    cases h.1
  | some ns => exact pure_eq_ok.trans ⟨fun h => ⟨rfl, h.1.symm, h.2⟩, fun h => ⟨h.2.1.symm, h.2.2⟩⟩

theorem freshBlank_eq (s : State) :
    ∃ s', freshBlank s = .ok (bracketNode s.blanks, s') ∧ Took [] 1 s s' :=
  ⟨{ s with blanks := s.blanks + 1 }, rfl, ⟨[], rfl, rfl⟩, rfl, rfl⟩

end Actions

/-! ### Terms and verbs -/

section Terms
variable {s : State} {fuel : Nat} {following : List Token}

theorem term_reads_reference (r : Reference) (fuel : Nat) (h : s.ahead = r.token :: following)
    (hd : s.scope.Declares [r.token]) :
    ∃ s', term (fuel + 1) s = .ok (.iri (r.iri s.scope), s') ∧ Took [r.token] 0 s s' := by
  obtain ⟨next, hnext, htook⟩ := advance_cons h
  refine ⟨next, ?_, htook⟩
  rw [term, bind_of_ok hnext]
  cases r with
  | full iri =>
    show (resolve iri >>= fun iri => pure (Term.iri iri)) next = _
    rw [bind_of_ok (resolve_eq iri next), htook.scope]
    rfl
  | short space name =>
    have hspace := hd space name (List.mem_singleton.mpr rfl)
    show (expand space name >>= fun iri => pure (Term.iri iri)) next = _
    rw [bind_of_ok (expand_eq_ok.mpr ⟨htook.scope ▸ hspace, rfl, rfl⟩), htook.scope]
    rfl

end Terms
end Read

/-! ### First tokens -/

/-- A term starts with such a token. -/
def Token.startsTerm : Token → Bool
  | iriRef _ | prefixedName _ _ | var _ | blankLabel _ | string _ | integer _ | decimal _ | double _
  | trueKeyword | falseKeyword => true
  | _ => false

def Token.startsVerb : Token → Bool
  | a | sameAs | implies => true
  | t => t.startsTerm

theorem Written.tokens_eq (w : Written) :
    ∃ t rest, w.tokens = t :: rest ∧ t.startsTerm = true := by
  cases w with
  | reference r => exact ⟨r.token, [], rfl, by cases r <;> rfl⟩
  | var | blank | plain | tagged | typed | integer | decimal | double | trueKeyword
  | falseKeyword => exact ⟨_, _, rfl, rfl⟩

theorem Verb.tokens_eq (v : Verb) : ∃ t rest, v.tokens = t :: rest ∧ t.startsVerb = true := by
  cases v with
  | a | sameAs | implies => exact ⟨_, _, rfl, rfl⟩
  | term w =>
    obtain ⟨t, rest, htokens, hstart⟩ := w.tokens_eq
    refine ⟨t, rest, htokens, ?_⟩
    cases t <;> first | rfl | cases hstart

theorem Verb.length_pos (v : Verb) : 0 < v.tokens.length := by
  obtain ⟨t, rest, htokens, _⟩ := v.tokens_eq
  rw [htokens]
  exact Nat.zero_lt_succ _

theorem Bracket.tokens_eq (b : Bracket) : ∃ rest, b.tokens = .lbracket :: rest := by
  cases b <;> exact ⟨_, rfl⟩

/-- A language tag or the mark of a datatype, which belong to the string before them. -/
def Token.isSuffix : Token → Bool
  | langTag _ | doubleCaret => true
  | _ => false

/-- The next token does not belong to a string before it. -/
def NoSuffix (following : List Token) : Prop := ∀ t ∈ following.head?, t.isSuffix = false

namespace Read
section Terms
variable {s : State} {fuel : Nat} {following : List Token}

theorem term_reads (w : Written) (fuel : Nat) (hfuel : w.tokens.length ≤ fuel)
    (h : s.ahead = w.tokens ++ following) (hnext : NoSuffix following)
    (hd : s.scope.Declares w.tokens) :
    ∃ s', term fuel s = .ok (w.value s.scope, s') ∧ Took w.tokens 0 s s' := by
  obtain ⟨fuel, rfl⟩ : ∃ k, fuel = k + 1 := by
    cases fuel with
    | zero => cases w <;> exact absurd hfuel (Nat.not_succ_le_zero _)
    | succ k => exact ⟨k, rfl⟩
  cases w with
  | reference r => exact term_reads_reference r fuel h hd
  | var name | blank label | integer digits | decimal digits | double digits | trueKeyword
  | falseKeyword =>
    obtain ⟨next, hread, htook⟩ := advance_cons h
    refine ⟨next, ?_, htook⟩
    rw [term, bind_of_ok hread]
    rfl
  | plain body =>
    obtain ⟨next, hread, htook⟩ := advance_cons h
    refine ⟨next, ?_, htook⟩
    rw [term, bind_of_ok hread]
    show (peek >>= _) next = _
    rw [peek_bind, htook.ahead_eq h]
    cases following with
    | nil => rfl
    | cons t rest =>
      have ht := hnext t rfl
      cases t <;> first | rfl | cases ht
  | tagged body tag =>
    obtain ⟨next, hread, htook⟩ := advance_cons h
    obtain ⟨last, hread', htook'⟩ := advance_cons (htook.ahead_eq h)
    refine ⟨last, ?_, htook.trans htook'⟩
    rw [term, bind_of_ok hread]
    show (peek >>= _) next = _
    rw [peek_bind, htook.ahead_eq h]
    show (advance >>= _) next = _
    rw [bind_of_ok hread']
    rfl
  | typed body datatype =>
    obtain ⟨next, hread, htook⟩ := advance_cons h
    obtain ⟨mark, hread', htook'⟩ := advance_cons (htook.ahead_eq h)
    have hscope : mark.scope = s.scope := htook'.scope.trans htook.scope
    obtain ⟨k, rfl⟩ : ∃ k, fuel = k + 1 := ⟨fuel - 1, by simp [Written.tokens] at hfuel; omega⟩
    obtain ⟨last, hread'', htook''⟩ := term_reads_reference datatype k
      (htook'.ahead_eq (htook.ahead_eq h))
      (hscope ▸ fun space name hm => hd space name (List.mem_cons_of_mem _ (List.mem_cons_of_mem _ hm)))
    refine ⟨last, ?_, (htook.trans htook').trans htook''⟩
    rw [term, bind_of_ok hread]
    show (peek >>= _) next = _
    rw [peek_bind, htook.ahead_eq h]
    show (advance >>= fun _ => term (k + 1) >>= _) next = _
    rw [bind_of_ok hread', bind_of_ok hread'', hscope]
    rfl

theorem verb_reads (v : Verb) (fuel : Nat) (hfuel : v.tokens.length ≤ fuel)
    (h : s.ahead = v.tokens ++ following) (hnext : NoSuffix following)
    (hd : s.scope.Declares v.tokens) :
    ∃ s', verb fuel s = .ok (v.value s.scope, s') ∧ Took v.tokens 0 s s' := by
  rw [verb, peek_bind]
  cases v with
  | a | sameAs | implies =>
    obtain ⟨next, hread, htook⟩ := advance_cons h
    refine ⟨next, ?_, htook⟩
    rw [h]
    show (advance >>= _) s = _
    rw [bind_of_ok hread]
    rfl
  | term w =>
    obtain ⟨last, hread, htook⟩ := term_reads w fuel hfuel h hnext hd
    refine ⟨last, ?_, htook⟩
    obtain ⟨t, rest, htokens, hstart⟩ := w.tokens_eq
    rw [h, Verb.tokens, htokens]
    cases t <;> first | exact hread | cases hstart

end Terms
end Read

/-! ### Last tokens -/

/-- Such a token stands behind verbs and objects. -/
def Token.closes : Token → Bool
  | dot | rbrace | rbracket => true
  | _ => false

/-- The next token is there, and ends verbs and objects. -/
def Closes (following : List Token) : Prop := ∃ t rest, following = t :: rest ∧ t.closes = true

/-- The next token neither belongs to a string nor goes on with more objects. -/
def EndsObjects (following : List Token) : Prop :=
  NoSuffix following ∧ following.head? ≠ some .comma

theorem NoSuffix.cons {t : Token} {rest : List Token} (h : t.isSuffix = false) :
    NoSuffix (t :: rest) := fun u hu => by cases hu; exact h

theorem EndsObjects.cons {t : Token} {rest : List Token} (h : t.isSuffix = false)
    (hcomma : t ≠ .comma) : EndsObjects (t :: rest) :=
  ⟨.cons h, fun heq => hcomma (Option.some.inj heq)⟩

theorem Closes.endsObjects {following : List Token} (h : Closes following) :
    EndsObjects following := by
  obtain ⟨t, rest, rfl, ht⟩ := h
  cases t <;> first | (cases ht; done) | exact .cons rfl (by simp)

/-- Verbs start with none of the tokens that stand between and behind them. -/
theorem Verb.head?_ne (v : Verb) (following : List Token) {t : Token} (ht : t.startsVerb = false) :
    (v.tokens ++ following).head? ≠ some t := by
  obtain ⟨u, rest, htokens, hstart⟩ := v.tokens_eq
  rw [htokens]
  rintro ⟨⟩
  rw [ht] at hstart
  cases hstart

theorem Properties.starts_with_verb (p : Properties) :
    ∃ (v : Verb) (rest : List Token), p.tokens = v.tokens ++ rest := by
  cases p with
  | last v os k => exact ⟨v, _, List.append_assoc _ _ _⟩
  | more v os k rest => exact ⟨v, _, by simp only [Properties.tokens, List.append_assoc]; rfl⟩

theorem Closes.head?_ne {following : List Token} (h : Closes following) :
    following.head? ≠ some .semicolon := by
  obtain ⟨t, rest, rfl, ht⟩ := h
  rintro ⟨⟩
  cases ht

theorem endsObjects_semicolons {following : List Token} (h : Closes following) (k : Nat) :
    EndsObjects (List.replicate k .semicolon ++ following) := by
  cases k with
  | zero => exact h.endsObjects
  | succ k => exact .cons rfl (by simp)

theorem Verb.noSuffix (v : Verb) (following : List Token) : NoSuffix (v.tokens ++ following) := by
  obtain ⟨t, rest, htokens, hstart⟩ := v.tokens_eq
  rw [htokens]
  cases t <;> first | exact .cons rfl | cases hstart

theorem Properties.noSuffix (p : Properties) (following : List Token) :
    NoSuffix (p.tokens ++ following) := by
  cases p <;> simp only [Properties.tokens, List.append_assoc] <;> exact Verb.noSuffix _ _

theorem Object.noSuffix (o : Object) (following : List Token) : NoSuffix (o.tokens ++ following) := by
  cases o with
  | term w => exact Verb.noSuffix (.term w) following
  | bracket b =>
    obtain ⟨rest, htokens⟩ := b.tokens_eq
    rw [Object.tokens, htokens]
    exact .cons rfl

theorem Objects.noSuffix (os : Objects) (following : List Token) :
    NoSuffix (os.tokens ++ following) := by
  cases os with
  | one o => exact o.noSuffix following
  | more o rest =>
    rw [Objects.tokens, List.append_assoc]
    exact o.noSuffix _

namespace Read
variable {s : State} {fuel : Nat} {following : List Token}

/-! ### Verbs and objects -/

theorem semicolons_reads (k fuel : Nat) (hfuel : k ≤ fuel)
    (h : s.ahead = List.replicate k .semicolon ++ following)
    (hnext : following.head? ≠ some .semicolon) :
    ∃ s', semicolons fuel s = .ok ((), s') ∧ Took (List.replicate k .semicolon) 0 s s' := by
  induction k generalizing fuel s with
  | zero =>
    refine ⟨s, ?_, .refl s⟩
    cases fuel with
    | zero => rfl
    | succ fuel =>
      rw [semicolons, peek_bind, h]
      exact congrFun (if_neg hnext) s
  | succ k ih =>
    obtain ⟨fuel, rfl⟩ : ∃ f, fuel = f + 1 := ⟨fuel - 1, by omega⟩
    obtain ⟨next, hread, htook⟩ := advance_cons h
    obtain ⟨last, hread', htook'⟩ := ih fuel (Nat.le_of_succ_le_succ hfuel) (htook.ahead_eq h)
    refine ⟨last, ?_, htook.trans htook'⟩
    rw [semicolons, peek_bind, h]
    show (advance >>= fun _ => semicolons fuel) s = _
    rw [bind_of_ok hread, hread']

theorem atEnd_of_closes (h : Closes s.ahead) : atEnd s = .ok (true, s) := by
  obtain ⟨t, rest, hs, ht⟩ := h
  rw [atEnd, peek_bind, hs]
  cases t <;> first | rfl | cases ht

theorem atEnd_of_verb (v : Verb) (h : s.ahead = v.tokens ++ following) :
    atEnd s = .ok (false, s) := by
  obtain ⟨t, rest, htokens, hstart⟩ := v.tokens_eq
  rw [atEnd, peek_bind, h, htokens]
  cases t <;> first | rfl | cases hstart

mutual

theorem properties_reads (p : Properties) (fuel : Nat) {s : State} {following : List Token}
    (subject : Term) (hfuel : 2 * p.tokens.length ≤ fuel) (h : s.ahead = p.tokens ++ following)
    (hclose : Closes following) (hd : s.scope.Declares p.tokens) :
    ∃ s', properties fuel subject s = .ok (p.triples s.scope subject s.blanks, s') ∧
      Took p.tokens p.brackets s s' := by
  cases p with
  | last v os k =>
    have hv := v.length_pos
    simp only [Properties.tokens, List.length_append, List.length_replicate] at hfuel
    simp only [Properties.tokens, List.append_assoc] at h
    simp only [Properties.tokens, Scope.declares_append] at hd
    obtain ⟨fuel, rfl⟩ : ∃ f, fuel = f + 1 := ⟨fuel - 1, by omega⟩
    obtain ⟨s₁, hverb, htook₁⟩ := verb_reads v fuel (by omega) h (os.noSuffix _) hd.1.1
    obtain ⟨s₂, hobjects, htook₂⟩ := objects_reads os fuel subject (v.value s.scope)
      (by omega) (htook₁.ahead_eq h) (endsObjects_semicolons hclose k) (htook₁.scope ▸ hd.1.2)
    have hahead := htook₂.ahead_eq (htook₁.ahead_eq h)
    have htook := htook₁.trans htook₂
    rw [htook₁.scope, htook₁.blanks] at hobjects
    rw [Nat.zero_add] at htook
    rw [properties, bind_of_ok hverb, bind_of_ok hobjects, peek_bind, hahead]
    cases k with
    | zero =>
      refine ⟨s₂, ?_, by simpa [Properties.tokens, Properties.brackets] using htook⟩
      exact congrFun (if_pos hclose.head?_ne) s₂
    | succ k =>
      obtain ⟨s₃, hread, htook₃⟩ :=
        semicolons_reads (k + 1) fuel (by omega) hahead hclose.head?_ne
      have hclose₃ : Closes s₃.ahead := by rwa [htook₃.ahead_eq hahead]
      refine ⟨s₃, ?_, htook.trans htook₃⟩
      show (semicolons fuel >>= fun _ => atEnd >>= _) s₂ = _
      rw [bind_of_ok hread, bind_of_ok (atEnd_of_closes hclose₃)]
      rfl
  | more v os k rest =>
    have hv := v.length_pos
    simp only [Properties.tokens, List.length_append, List.length_replicate] at hfuel
    simp only [Properties.tokens, List.append_assoc] at h
    simp only [Properties.tokens, Scope.declares_append] at hd
    obtain ⟨fuel, rfl⟩ : ∃ f, fuel = f + 1 := ⟨fuel - 1, by omega⟩
    obtain ⟨s₁, hverb, htook₁⟩ :=
      verb_reads v fuel (by omega) h (os.noSuffix _) hd.1.1.1
    obtain ⟨s₂, hobjects, htook₂⟩ := objects_reads os fuel subject (v.value s.scope)
      (by omega) (htook₁.ahead_eq h) (.cons rfl (by simp)) (htook₁.scope ▸ hd.1.1.2)
    have hahead := htook₂.ahead_eq (htook₁.ahead_eq h)
    obtain ⟨w, after, hafter⟩ := rest.starts_with_verb
    obtain ⟨s₃, hread, htook₃⟩ := semicolons_reads (k + 1) fuel (by omega) hahead
      (by rw [hafter, List.append_assoc]; exact w.head?_ne _ rfl)
    have hahead₃ := htook₃.ahead_eq hahead
    have htook := (htook₁.trans htook₂).trans htook₃
    rw [Nat.zero_add, Nat.add_zero] at htook
    obtain ⟨s₄, hrest, htook₄⟩ := properties_reads rest fuel subject (by omega) hahead₃
      hclose (htook.scope ▸ hd.2)
    refine ⟨s₄, ?_, htook.trans htook₄⟩
    rw [htook₁.scope, htook₁.blanks] at hobjects
    rw [htook.scope, htook.blanks] at hrest
    rw [properties, bind_of_ok hverb, bind_of_ok hobjects, peek_bind, hahead]
    show (semicolons fuel >>= fun _ => atEnd >>= _) s₂ = _
    rw [bind_of_ok hread,
      bind_of_ok (atEnd_of_verb w (by rw [hahead₃, hafter, List.append_assoc]))]
    show (properties fuel subject >>= _) s₃ = _
    rw [bind_of_ok hrest]
    rfl

theorem objects_reads (os : Objects) (fuel : Nat) {s : State} {following : List Token}
    (subject verb : Term) (hfuel : 2 * os.tokens.length + 1 ≤ fuel)
    (h : s.ahead = os.tokens ++ following) (hend : EndsObjects following)
    (hd : s.scope.Declares os.tokens) :
    ∃ s', objects fuel subject verb s = .ok (os.triples s.scope subject verb s.blanks, s') ∧
      Took os.tokens os.brackets s s' := by
  obtain ⟨fuel, rfl⟩ : ∃ f, fuel = f + 1 := ⟨fuel - 1, by omega⟩
  cases os with
  | one o =>
    simp only [Objects.tokens] at hfuel h hd
    obtain ⟨s₁, hobject, htook⟩ := object_reads o fuel (by omega) h hend.1 hd
    refine ⟨s₁, ?_, htook⟩
    rw [objects, bind_of_ok hobject]
    show (peek >>= _) s₁ = _
    rw [peek_bind, htook.ahead_eq h]
    exact congrFun (if_neg hend.2) s₁
  | more o rest =>
    simp only [Objects.tokens, List.length_append, List.length_cons] at hfuel
    simp only [Objects.tokens, List.append_assoc] at h
    rw [Objects.tokens, Scope.declares_append, Scope.declares_cons] at hd
    obtain ⟨s₁, hobject, htook₁⟩ := object_reads o fuel (by omega) h (.cons rfl) hd.1
    obtain ⟨s₂, hcomma, htook₂⟩ := advance_cons (htook₁.ahead_eq h)
    have htook := htook₁.trans htook₂
    rw [Nat.add_zero] at htook
    obtain ⟨s₃, hrest, htook₃⟩ := objects_reads rest fuel subject verb (by omega)
      (htook₂.ahead_eq (htook₁.ahead_eq h)) hend (htook.scope ▸ hd.2.2)
    refine ⟨s₃, ?_, by simpa [Objects.tokens, Objects.brackets] using htook.trans htook₃⟩
    rw [htook.scope, htook.blanks] at hrest
    rw [objects, bind_of_ok hobject]
    show (peek >>= _) s₁ = _
    rw [peek_bind, htook₁.ahead_eq h]
    show (advance >>= fun _ => objects fuel subject verb >>= _) s₁ = _
    rw [bind_of_ok hcomma, bind_of_ok hrest]
    rfl

theorem object_reads (o : Object) (fuel : Nat) {s : State} {following : List Token}
    (hfuel : 2 * o.tokens.length ≤ fuel) (h : s.ahead = o.tokens ++ following)
    (hnext : NoSuffix following) (hd : s.scope.Declares o.tokens) :
    ∃ s', object fuel s = .ok ((o.node s.scope s.blanks, o.inner s.scope s.blanks), s') ∧
      Took o.tokens o.brackets s s' := by
  cases o with
  | term w =>
    obtain ⟨t, rest, htokens, hstart⟩ := w.tokens_eq
    simp only [Object.tokens] at hfuel h hd
    have hlength : w.tokens.length = rest.length + 1 := by rw [htokens, List.length_cons]
    obtain ⟨fuel, rfl⟩ : ∃ f, fuel = f + 1 := ⟨fuel - 1, by omega⟩
    obtain ⟨s₁, hterm, htook⟩ := term_reads w fuel (by omega) h hnext hd
    refine ⟨s₁, ?_, htook⟩
    have hne : s.ahead.head? ≠ some .lbracket := by
      rw [h, htokens]
      rintro ⟨⟩
      cases hstart
    rw [object, peek_bind, if_neg hne, bind_of_ok hterm]
    rfl
  | bracket b =>
    obtain ⟨rest, htokens⟩ := b.tokens_eq
    simp only [Object.tokens] at hfuel h hd
    have hlength : b.tokens.length = rest.length + 1 := by rw [htokens, List.length_cons]
    obtain ⟨fuel, rfl⟩ : ∃ f, fuel = f + 1 := ⟨fuel - 1, by omega⟩
    obtain ⟨s₁, hbracket, htook⟩ := bracket_reads b fuel (by omega) h hd
    refine ⟨s₁, ?_, htook⟩
    rw [object, peek_bind, if_pos (by rw [h, htokens]; rfl), hbracket]
    rfl

theorem bracket_reads (b : Bracket) (fuel : Nat) {s : State} {following : List Token}
    (hfuel : 2 * b.tokens.length ≤ fuel + 2) (h : s.ahead = b.tokens ++ following)
    (hd : s.scope.Declares b.tokens) :
    ∃ s', bracket fuel s = .ok ((bracketNode s.blanks, b.triples s.scope s.blanks), s') ∧
      Took b.tokens b.brackets s s' := by
  cases b with
  | empty =>
    obtain ⟨fuel, rfl⟩ : ∃ f, fuel = f + 1 := ⟨fuel - 1, by simp [Bracket.tokens] at hfuel; omega⟩
    obtain ⟨s₁, hopen, htook₁⟩ := expect_cons h
    obtain ⟨s₂, hfresh, htook₂⟩ := freshBlank_eq s₁
    have hahead := htook₂.ahead_eq (htook₁.ahead_eq h)
    obtain ⟨s₃, hclose, htook₃⟩ := advance_cons hahead
    refine ⟨s₃, ?_, (htook₁.trans htook₂).trans htook₃⟩
    rw [bracket, bind_of_ok hopen, bind_of_ok hfresh, peek_bind, hahead, htook₁.blanks]
    show (advance >>= _) s₂ = _
    rw [bind_of_ok hclose]
    rfl
  | stating p =>
    simp only [Bracket.tokens, List.length_cons, List.length_append, List.length_nil] at hfuel
    simp only [Bracket.tokens, List.cons_append, List.append_assoc, List.nil_append] at h
    rw [Bracket.tokens, List.cons_append, Scope.declares_cons, Scope.declares_append] at hd
    obtain ⟨fuel, rfl⟩ : ∃ f, fuel = f + 1 := ⟨fuel - 1, by omega⟩
    obtain ⟨s₁, hopen, htook₁⟩ := expect_cons h
    obtain ⟨s₂, hfresh, htook₂⟩ := freshBlank_eq s₁
    have hahead : s₂.ahead = p.tokens ++ .rbracket :: following :=
      htook₂.ahead_eq (htook₁.ahead_eq h)
    have htook := htook₁.trans htook₂
    obtain ⟨w, after, hafter⟩ := p.starts_with_verb
    obtain ⟨s₃, hstated, htook₃⟩ := properties_reads p fuel (bracketNode s.blanks)
      (by omega) hahead ⟨_, _, rfl, rfl⟩ (htook.scope ▸ hd.2.1)
    obtain ⟨s₄, hclose, htook₄⟩ := expect_cons (htook₃.ahead_eq hahead)
    refine ⟨s₄, ?_, by simpa [Bracket.tokens, Bracket.brackets] using (htook.trans htook₃).trans htook₄⟩
    rw [htook.scope, htook.blanks] at hstated
    have hne : s₂.ahead.head? ≠ some .rbracket := by
      rw [hahead, hafter, List.append_assoc]
      exact w.head?_ne _ rfl
    rw [bracket, bind_of_ok hopen, bind_of_ok hfresh, peek_bind, if_neg hne, htook₁.blanks]
    show (properties fuel (bracketNode s.blanks) >>= fun _ => expect .rbracket >>= _) s₂ = _
    rw [bind_of_ok hstated, bind_of_ok hclose]
    rfl

end

end Read

end HornReasoner.N3
