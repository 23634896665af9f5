import HornReasoner.Proofs.N3.Acceptance
import HornReasoner.Proofs.N3.Places

/-! The places of faults.

A reader goes through the tokens and looks at no more than the next one (`SteadyAt`): what it found
stays found whatever comes later, and what it complains about is a token that it reached, with
everything behind that token open. So a complaint belongs to one token of the text. Its place is that
token's place where the reader took the token before it complains; behind a sentence of a formula it
only looks at the token, and the place is that of the token before. -/
namespace HornReasoner.N3

/-- The place of the last of these tokens; `last` is the place of the token before them. -/
def lastPlace (last : Position) (read : List (Token × Position)) : Position :=
  read.foldl (fun _ e => e.2) last

theorem lastPlace_append (last : Position) (read read' : List (Token × Position)) :
    lastPlace last (read ++ read') = lastPlace (lastPlace last read) read' := List.foldl_append

theorem exists_eq_concat_lastPlace (last : Position) {read : List (Token × Position)}
    (h : read ≠ []) : ∃ front u, read = front ++ [(u, lastPlace last read)] := by
  obtain ⟨front, ⟨u, p⟩, rfl⟩ := (List.eq_nil_or_concat' read).resolve_left h
  exact ⟨front, u, by rw [lastPlace_append]; rfl⟩

/-- The same state with other tokens to read. -/
def State.facing (s : State) (rest : List (Token × Position)) (finish : Position) : State :=
  { s with rest, finish }

/-- Where a complaint about a token at `p` is reported, these tokens being before it. -/
def Expected.Points (read : List (Token × Position)) (p place : Position) : Expected → Prop
  | dotOrBrace => ∃ front u, read = front ++ [(u, place)]
  | _ => place = p

theorem Expected.Points.append {expected : Expected} {read' : List (Token × Position)}
    {p place : Position} (h : expected.Points read' p place) (read : List (Token × Position)) :
    expected.Points (read ++ read') p place := by
  cases expected with
  | dotOrBrace =>
    obtain ⟨front, u, rfl⟩ := h
    exact ⟨read ++ front, u, (List.append_assoc _ _ _).symm⟩
  | token | term | iri | prefixName => exact h

theorem Expected.points_self {expected : Expected} (h : expected ≠ .dotOrBrace)
    (read : List (Token × Position)) (p : Position) : expected.Points read p p := by
  cases expected with
  | dotOrBrace => exact absurd rfl h
  | token | term | iri | prefixName => rfl

/-- A token is out of place. -/
def Cause.complains : Cause → Bool
  | unexpected _ (some _) => true
  | _ => false

namespace Read
variable {α β : Type}

/-- The reader complains about the token behind `read`, whatever follows that token. -/
def Blames (x : Read α) (s : State) (place : Position) (expected : Expected) (t : Token) : Prop :=
  ∃ read p rest, s.rest = read ++ (t, p) :: rest ∧ expected.Points read p place ∧
    ∀ more finish, x (s.facing (read ++ (t, p) :: more) finish) =
      .error ⟨place, .unexpected expected (some t)⟩

/-- What the reader does is decided by what it took and by the next token. -/
structure SteadyAt (x : Read α) (s : State) : Prop where
  ok : ∀ {a s'}, x s = .ok (a, s') → ∃ read, s.rest = read ++ s'.rest ∧
    s'.last = lastPlace s.last read ∧
    ∀ next finish, next ≠ [] → next.head? = s'.rest.head? →
      x (s.facing (read ++ next) finish) = .ok (a, s'.facing next finish)
  fail : ∀ {place expected t}, x s = .error ⟨place, .unexpected expected (some t)⟩ →
    Blames x s place expected t

def Steady (x : Read α) : Prop := ∀ s, SteadyAt x s

section Steps
variable {x : Read α} {f : α → Read β} {s s' : State}

/-- A complaint behind what was read before. -/
theorem Blames.bind {a : α} {place : Position} {expected : Expected} {t : Token}
    (hx : SteadyAt x s) (h : x s = .ok (a, s')) (hf : Blames (f a) s' place expected t) :
    Blames (x >>= f) s place expected t := by
  obtain ⟨read, hrest, _, hfacing⟩ := hx.ok h
  obtain ⟨read', p, rest, hrest', hpoints, hfails⟩ := hf
  refine ⟨read ++ read', p, rest, ?_, hpoints.append read, fun more finish => ?_⟩
  · rw [hrest, hrest', List.append_assoc]
  · rw [List.append_assoc, bind_of_ok (hfacing _ finish (by simp) ?_)]
    · exact hfails more finish
    · rw [hrest', List.head?_append, List.head?_append]
      rfl

theorem SteadyAt.bind (hx : SteadyAt x s) (hf : ∀ a s', x s = .ok (a, s') → SteadyAt (f a) s') :
    SteadyAt (x >>= f) s := by
  constructor
  · intro b s'' h
    obtain ⟨a, s', hread, hread'⟩ := bind_eq_ok.mp h
    obtain ⟨read, hrest, hlast, hfacing⟩ := hx.ok hread
    obtain ⟨read', hrest', hlast', hfacing'⟩ := (hf a s' hread).ok hread'
    refine ⟨read ++ read', ?_, ?_, fun next finish hnext hhead => ?_⟩
    · rw [hrest, hrest', List.append_assoc]
    · rw [hlast', hlast, lastPlace_append]
    · rw [List.append_assoc, bind_of_ok (hfacing _ finish (by simp [hnext]) ?_)]
      · exact hfacing' next finish hnext hhead
      · rw [hrest', List.head?_append, List.head?_append, hhead]
  · intro place expected t h
    cases hread : x s with
    | error fault =>
      rw [bind_of_error hread] at h
      cases h
      obtain ⟨read, p, rest, hrest, hpoints, hfails⟩ := hx.fail hread
      exact ⟨read, p, rest, hrest, hpoints, fun more finish => bind_of_error (hfails more finish)⟩
    | ok e =>
      rw [bind_of_ok hread] at h
      exact .bind hx hread ((hf e.1 e.2 hread).fail h)

theorem Steady.bind (hx : Steady x) (hf : ∀ a, Steady (f a)) : Steady (x >>= f) :=
  fun s => (hx s).bind fun a s' _ => hf a s'

theorem steady_pure (a : α) : Steady (pure a : Read α) := fun s => by
  constructor
  · intro b s' h
    obtain ⟨rfl, rfl⟩ := pure_eq_ok.mp h
    exact ⟨[], rfl, rfl, fun _ _ _ _ => rfl⟩
  · intro place expected t h
    cases h

/-- A fault that is no complaint about a token. -/
theorem steady_fail (place : Position) {cause : Cause} (h : cause.complains = false) :
    Steady (fail place cause : Read α) := fun s => by
  constructor
  · intro b s' hread
    cases hread
  · intro place' expected t hfault
    cases hfault
    cases h

/-- The reader takes no token, and does not look at any. -/
theorem SteadyAt.of_silent {a : α} (h : x s = .ok (a, s')) (hrest : s'.rest = s.rest)
    (hlast : s'.last = s.last)
    (hfacing : ∀ next finish, x (s.facing next finish) = .ok (a, s'.facing next finish)) :
    SteadyAt x s := by
  constructor
  · intro b s'' h'
    rw [h] at h'
    cases h'
    exact ⟨[], hrest.symm, hlast, fun next finish _ _ => hfacing next finish⟩
  · intro place expected t h'
    rw [h] at h'
    cases h'

theorem steady_peek : Steady peek := fun s => by
  constructor
  · intro found s' h
    rw [peek_eq] at h
    cases h
    refine ⟨[], rfl, rfl, fun next finish _ hhead => ?_⟩
    rw [peek_eq, State.ahead, State.ahead, List.head?_map, List.head?_map, ← hhead]
    rfl
  · intro place expected t h
    rw [peek_eq] at h
    cases h

theorem steady_here : Steady here := fun s => by
  obtain ⟨rest, last, finish, prefixes, base, blanks⟩ := s
  constructor
  · intro place s' h
    cases h
    refine ⟨[], rfl, rfl, fun next finish hnext hhead => ?_⟩
    obtain ⟨e, next, rfl⟩ := List.exists_cons_of_ne_nil hnext
    obtain ⟨rest, rfl⟩ := List.head?_eq_some_iff.mp hhead.symm
    rfl
  · intro place expected t h
    cases h

theorem steady_advance : Steady advance := fun s => by
  obtain ⟨rest, last, finish, prefixes, base, blanks⟩ := s
  constructor
  · intro found s' h
    cases rest with
    | nil =>
      cases h
      exact ⟨[], rfl, rfl, fun next finish hnext hhead => absurd (List.head?_eq_none_iff.mp hhead) hnext⟩
    | cons e rest =>
      cases h
      exact ⟨[e], rfl, rfl, fun _ _ _ _ => rfl⟩
  · intro place expected t h
    cases rest <;> cases h

/-- The reader takes a token, and may complain about it. -/
theorem steady_advance_bind {f : Option Token → Read β} (hnone : Steady (f none))
    (hsome : ∀ t, Steady (f (some t)) ∨
      ∃ expected, expected ≠ .dotOrBrace ∧ f (some t) = unexpected expected (some t)) :
    Steady (advance >>= f) := fun s => by
  obtain ⟨rest, last, finish, prefixes, base, blanks⟩ := s
  cases rest with
  | nil =>
    refine (steady_advance _).bind fun found s' h => ?_
    cases h
    exact hnone _
  | cons e rest =>
    obtain ⟨t, p⟩ := e
    rcases hsome t with ht | ⟨expected, hexpected, ht⟩
    · refine (steady_advance _).bind fun found s' h => ?_
      cases h
      exact ht _
    · have hfails (more : List (Token × Position)) (finish : Position) :
          (advance >>= f) ⟨(t, p) :: more, last, finish, prefixes, base, blanks⟩ =
            .error ⟨p, .unexpected expected (some t)⟩ := by
        show f (some t) ⟨more, p, finish, prefixes, base, blanks⟩ = _
        rw [ht]
        rfl
      constructor
      · intro b s' h
        rw [hfails] at h
        cases h
      · intro place expected' t' h
        rw [hfails] at h
        cases h
        exact ⟨[], p, rest, rfl, Expected.points_self hexpected _ _, hfails⟩

/-- The reader looks at the next token behind something that it read, and may complain about it. -/
theorem steady_bind_peek {f : α → Option Token → Read β} (hx : Steady x)
    (hshorter : ∀ {s a s'}, x s = .ok (a, s') → s'.rest.length < s.rest.length)
    (hnone : ∀ a, Steady (f a none))
    (hsome : ∀ a t, Steady (f a (some t)) ∨ f a (some t) = unexpected .dotOrBrace (some t)) :
    Steady (x >>= fun a => peek >>= f a) := fun s => by
  cases hread : x s with
  | error fault =>
    refine (hx s).bind fun a s' h => ?_
    rw [hread] at h
    cases h
  | ok e =>
    obtain ⟨a, s'⟩ := e
    have hother (h : Steady (f a (s'.rest.head?.map Prod.fst))) :
        SteadyAt (x >>= fun a => peek >>= f a) s := by
      refine (hx s).bind fun _ _ hread' => (steady_peek _).bind fun _ _ hpeek => ?_
      rw [hread] at hread'
      cases hread'
      cases hpeek
      exact h _
    cases hrest' : s'.rest with
    | nil =>
      rw [hrest'] at hother
      exact hother (hnone a)
    | cons e rest =>
      obtain ⟨t, p⟩ := e
      rw [hrest'] at hother
      rcases hsome a t with ht | ht
      · exact hother ht
      · obtain ⟨read, hrest, hlast, hfacing⟩ := (hx s).ok hread
        have hsome : read ≠ [] := by
          rintro rfl
          have := hshorter hread
          rw [hrest] at this
          exact Nat.lt_irrefl _ this
        have hfails (more : List (Token × Position)) (finish : Position) :
            (x >>= fun a => peek >>= f a) (s.facing (read ++ (t, p) :: more) finish) =
              .error ⟨s'.last, .unexpected .dotOrBrace (some t)⟩ := by
          rw [bind_of_ok (hfacing _ finish (by simp) (by rw [hrest']; rfl))]
          show f a (some t) _ = _
          rw [ht]
          rfl
        have hfailsHere : (x >>= fun a => peek >>= f a) s =
            .error ⟨s'.last, .unexpected .dotOrBrace (some t)⟩ := by
          rw [← hfails rest s.finish, ← hrest', ← hrest]
          rfl
        constructor
        · intro b s'' h
          rw [hfailsHere] at h
          cases h
        · intro place expected t' h
          rw [hfailsHere] at h
          cases h
          refine ⟨read, p, rest, hrest.trans (by rw [hrest']), ?_, hfails⟩
          rw [hlast]
          exact exists_eq_concat_lastPlace s.last hsome

end Steps

/-! ### Readers -/

/-- Out of fuel. -/
theorem steady_stopped {cause : Cause} (h : cause.complains = false) :
    Steady (here >>= fun place => fail place cause : Read α) :=
  steady_here.bind fun place => steady_fail place h

theorem steady_unexpected_none (expected : Expected) : Steady (unexpected (α := α) expected none) :=
  steady_stopped rfl

theorem steady_expect (t : Token) : Steady (expect t) := by
  refine steady_advance_bind (steady_unexpected_none _) fun u => ?_
  by_cases hu : some u = some t
  · exact .inl (by rw [if_neg (fun hne => hne hu)]; exact steady_pure ())
  · exact .inr ⟨.token t, by simp, if_pos hu⟩

theorem steady_resolve (iri : String) : Steady (resolve iri) := fun s =>
  .of_silent (resolve_eq iri s) rfl rfl fun next finish => resolve_eq iri (s.facing next finish)

theorem steady_expand (space name : String) : Steady (expand space name) := fun s => by
  cases hspace : s.prefixes.get? space with
  | some ns =>
    have hread (s' : State) (h : s'.prefixes.get? space = some ns) :
        expand space name s' = .ok (ns ++ name, s') := by
      rw [expand, get_bind, h]
      rfl
    exact .of_silent (hread s hspace) rfl rfl fun next finish => hread _ hspace
  | none =>
    have hread : expand space name s = fail s.last (.undeclared space) s := by
      rw [expand, get_bind, hspace]
    constructor
    · intro a s' h
      rw [hread] at h
      cases h
    · intro place expected t h
      rw [hread] at h
      cases h

theorem steady_modify {f : State → State} (hrest : ∀ s, (f s).rest = s.rest)
    (hlast : ∀ s, (f s).last = s.last)
    (hfacing : ∀ s next finish, f (s.facing next finish) = (f s).facing next finish) :
    Steady (modify f : Read Unit) := fun s =>
  .of_silent rfl (hrest s) (hlast s) fun next finish =>
    congrArg (fun s' => Except.ok ((), s')) (hfacing s next finish)

theorem steady_freshBlank : Steady freshBlank := fun _ => .of_silent rfl rfl rfl fun _ _ => rfl

theorem steady_iriRef : Steady iriRef := by
  refine steady_advance_bind (steady_unexpected_none _) fun t => ?_
  cases t with
  | iriRef iri => exact .inl (steady_resolve iri)
  | _ => exact .inr ⟨.iri, by simp, rfl⟩

theorem steady_term (fuel : Nat) : Steady (term fuel) := by
  induction fuel with
  | zero => exact steady_stopped rfl
  | succ fuel ih =>
    rw [term]
    refine steady_advance_bind (steady_unexpected_none _) fun t => ?_
    cases t with
    | iriRef iri => exact .inl ((steady_resolve iri).bind fun _ => steady_pure _)
    | prefixedName space name => exact .inl ((steady_expand space name).bind fun _ => steady_pure _)
    | var | blankLabel | integer | decimal | double | trueKeyword | falseKeyword =>
      exact .inl (steady_pure _)
    | string body =>
      refine .inl (steady_peek.bind fun next => ?_)
      cases next with
      | none => exact steady_pure _
      | some t =>
        cases t with
        | langTag tag => exact steady_advance.bind fun _ => steady_pure _
        | doubleCaret =>
          refine steady_advance.bind fun _ => ih.bind fun datatype => ?_
          cases datatype with
          | iri iri => exact steady_pure _
          | blank | literal | var => exact steady_stopped rfl
        | _ => exact steady_pure _
    | prefixKeyword | baseKeyword | implies | impliedBy | sameAs | a | langTag | doubleCaret
    | lbrace | rbrace | lbracket | rbracket | dot | comma | semicolon =>
      exact .inr ⟨.term, by simp, rfl⟩

theorem steady_verb (fuel : Nat) : Steady (verb fuel) := by
  refine steady_peek.bind fun next => ?_
  cases next with
  | none => exact steady_term fuel
  | some t =>
    cases t with
    | a | sameAs | implies => exact steady_advance.bind fun _ => steady_pure _
    | _ => exact steady_term fuel

theorem steady_semicolons (fuel : Nat) : Steady (semicolons fuel) := by
  induction fuel with
  | zero => exact steady_pure ()
  | succ fuel ih =>
    rw [semicolons]
    refine steady_peek.bind fun next => ?_
    split
    · exact steady_advance.bind fun _ => ih
    · exact steady_pure ()

theorem steady_atEnd : Steady atEnd := by
  refine steady_peek.bind fun next => ?_
  split <;> exact steady_pure _

mutual

theorem steady_properties (fuel : Nat) (subject : Term) : Steady (properties fuel subject) := by
  match fuel with
  | 0 =>
    rw [properties]
    exact steady_stopped rfl
  | fuel + 1 =>
    rw [properties]
    refine (steady_verb fuel).bind fun verb => (steady_objects fuel subject verb).bind fun stated =>
      steady_peek.bind fun next => ?_
    split
    · exact steady_pure stated
    · refine (steady_semicolons fuel).bind fun _ => steady_atEnd.bind fun ended => ?_
      split
      · exact steady_pure stated
      · exact (steady_properties fuel subject).bind fun _ => steady_pure _

theorem steady_objects (fuel : Nat) (subject verb : Term) : Steady (objects fuel subject verb) := by
  match fuel with
  | 0 =>
    rw [objects]
    exact steady_stopped rfl
  | fuel + 1 =>
    rw [objects]
    refine (steady_object fuel).bind fun found => steady_peek.bind fun next => ?_
    split
    · exact steady_advance.bind fun _ => (steady_objects fuel subject verb).bind fun _ => steady_pure _
    · exact steady_pure _

theorem steady_object (fuel : Nat) : Steady (object fuel) := by
  match fuel with
  | 0 =>
    rw [object]
    exact steady_stopped rfl
  | fuel + 1 =>
    rw [object]
    refine steady_peek.bind fun next => ?_
    split
    · exact steady_bracket fuel
    · exact (steady_term fuel).bind fun _ => steady_pure _

theorem steady_bracket (fuel : Nat) : Steady (bracket fuel) := by
  match fuel with
  | 0 =>
    rw [bracket]
    exact steady_stopped rfl
  | fuel + 1 =>
    rw [bracket]
    refine (steady_expect _).bind fun _ => steady_freshBlank.bind fun node =>
      steady_peek.bind fun next => ?_
    split
    · exact steady_advance.bind fun _ => steady_pure _
    · exact (steady_properties fuel node).bind fun _ => (steady_expect _).bind fun _ => steady_pure _

end

theorem steady_triples (fuel : Nat) : Steady (triples fuel) := by
  refine steady_peek.bind fun next => ?_
  split
  · refine (steady_bracket fuel).bind fun found => steady_peek.bind fun next => ?_
    have hsaid := (steady_properties fuel found.1).bind fun said => steady_pure (found.2 ++ said)
    cases next with
    | none => exact hsaid
    | some t =>
      cases t with
      | dot | rbrace => exact steady_pure _
      | _ => exact hsaid
  · exact (steady_term fuel).bind fun subject => steady_properties fuel subject

theorem steady_formulaRest (fuel : Nat) : Steady (formulaRest fuel) := by
  induction fuel with
  | zero => exact steady_stopped rfl
  | succ fuel ih =>
    have hsentence : Steady (sentenceRest fuel) := by
      refine steady_bind_peek (steady_triples fuel) triples_shorter (fun _ =>
        steady_unexpected_none _) fun stated t => ?_
      cases t with
      | dot | rbrace => exact .inl (ih.bind fun _ => steady_pure _)
      | _ => exact .inr rfl
    rw [formulaRest]
    refine steady_peek.bind fun next => ?_
    cases next with
    | none => exact steady_stopped rfl
    | some t =>
      cases t with
      | rbrace => exact steady_advance.bind fun _ => steady_pure _
      | dot => exact steady_advance.bind fun _ => ih
      | _ => exact hsentence

theorem steady_formula (fuel : Nat) : Steady (formula fuel) :=
  (steady_expect _).bind fun _ => steady_formulaRest fuel

theorem steady_arrow (fuel : Nat) : Steady (arrow fuel) := by
  have hterm : Steady (arrowTerm fuel) := by
    refine (steady_term fuel).bind fun found => ?_
    split
    · exact steady_here.bind fun place =>
        .bind (steady_fail place rfl) fun _ => steady_pure _
    · exact steady_pure _
  refine steady_peek.bind fun next => ?_
  cases next with
  | none => exact hterm
  | some t =>
    cases t with
    | implies | impliedBy => exact steady_advance.bind fun _ => steady_pure _
    | _ => exact hterm

theorem steady_statement (fuel : Nat) (read : Ruleset) : Steady (statement fuel read) := by
  have hfacts : Steady (factsRest fuel read) := by
    refine (steady_triples fuel).bind fun facts => (steady_expect _).bind fun _ => ?_
    split
    · exact steady_stopped rfl
    · exact steady_pure _
  refine steady_peek.bind fun next => ?_
  cases next with
  | none => exact steady_pure _
  | some t =>
    cases t with
    | prefixKeyword =>
      refine steady_advance.bind fun _ => steady_advance_bind (steady_unexpected_none _) fun t => ?_
      split
      · next space heq =>
        exact .inl (steady_iriRef.bind fun iri => (steady_expect _).bind fun _ =>
          .bind (steady_modify (fun _ => rfl) (fun _ => rfl) fun _ _ _ => rfl) fun _ => steady_pure _)
      · exact .inr ⟨.prefixName, by simp, rfl⟩
    | baseKeyword =>
      exact steady_advance.bind fun _ => steady_iriRef.bind fun iri => (steady_expect _).bind fun _ =>
        .bind (steady_modify (fun _ => rfl) (fun _ => rfl) fun _ _ _ => rfl) fun _ => steady_pure _
    | lbrace =>
      exact steady_here.bind fun place => (steady_formula fuel).bind fun first =>
        (steady_arrow fuel).bind fun reversed => (steady_formula fuel).bind fun second =>
          (steady_expect _).bind fun _ => steady_pure _
    | _ => exact hfacts

theorem steady_statements (inner fuel : Nat) (read : Ruleset) :
    Steady (statements inner fuel read) := by
  induction fuel generalizing read with
  | zero => exact steady_pure _
  | succ fuel ih =>
    rw [statements]
    refine steady_peek.bind fun next => ?_
    split
    · exact steady_pure _
    · exact (steady_statement inner read).bind ih

end Read

/-! ### Documents -/

section Documents
variable {prefixes : SortedMap String String} {tokens : List (Token × Position)}
  {finish : Position}

/-- Any fuel that is never used up will do. -/
theorem parseTokens_eq_error {fuel : Nat} {fault : Fault} (h : 2 * tokens.length ≤ fuel) :
    parseTokens prefixes tokens finish = .error fault ↔
      Read.document fuel (.start prefixes tokens finish) = .error fault := by
  have hfuel : Read.document fuel (.start prefixes tokens finish) =
      Read.document (2 * tokens.length + 2) (.start prefixes tokens finish) :=
    Read.document_fuel h (Nat.le_add_right _ 2)
  rw [hfuel, parseTokens, StateT.run]
  cases Read.document (2 * tokens.length + 2) (.start prefixes tokens finish) with
  | ok e => exact ⟨(by cases ·), (by cases ·)⟩
  | error fault' => exact ⟨fun h => by cases h; rfl, fun h => by cases h; rfl⟩

/-- Reading starts before the first token, whatever follows. -/
theorem start_facing (finish : Position) (read : List (Token × Position)) (e : Token × Position)
    (rest more : List (Token × Position)) (finish' : Position) :
    (State.start prefixes (read ++ e :: rest) finish).facing (read ++ e :: more) finish' =
      .start prefixes (read ++ e :: more) finish' := by
  cases read <;> rfl

/-- A complaint about a token. -/
def Complains (prefixes : SortedMap String String) (tokens : List (Token × Position)) : Prop :=
  ∃ finish place expected t,
    parseTokens prefixes tokens finish = .error ⟨place, .unexpected expected (some t)⟩

theorem not_complains_nil : ¬ Complains prefixes [] := by
  rintro ⟨finish, place, expected, t, h⟩
  cases h

variable {place : Position} {expected : Expected} {t : Token}

/-- With this fuel, the complaint is about the token behind `read`. -/
theorem blames_of_fuel {fuel : Nat} (hfuel : 2 * tokens.length ≤ fuel)
    (h : parseTokens prefixes tokens finish = .error ⟨place, .unexpected expected (some t)⟩) :
    ∃ read p rest, tokens = read ++ (t, p) :: rest ∧ expected.Points read p place ∧
      ∀ more finish', 2 * (read ++ (t, p) :: more).length ≤ fuel →
        parseTokens prefixes (read ++ (t, p) :: more) finish' =
          .error ⟨place, .unexpected expected (some t)⟩ := by
  obtain ⟨read, p, rest, hrest, hpoints, hfails⟩ :=
    (Read.steady_statements fuel fuel {} _).fail ((parseTokens_eq_error hfuel).mp h)
  have htokens : tokens = read ++ (t, p) :: rest := hrest
  subst htokens
  refine ⟨read, p, rest, rfl, hpoints, fun more finish' hmore => ?_⟩
  rw [parseTokens_eq_error hmore, ← start_facing finish read (t, p) rest more finish']
  exact hfails more finish'

/-- The token that is complained about: whatever follows it, the complaint is the same, and without
it there is no complaint. -/
theorem exists_blamed
    (h : parseTokens prefixes tokens finish = .error ⟨place, .unexpected expected (some t)⟩) :
    ∃ read p rest, tokens = read ++ (t, p) :: rest ∧ expected.Points read p place ∧
      (∀ more finish', parseTokens prefixes (read ++ (t, p) :: more) finish' =
        .error ⟨place, .unexpected expected (some t)⟩) ∧
      ¬ Complains prefixes read := by
  induction tokens using List.reverseRecOn generalizing finish place expected t with
  | nil => exact absurd ⟨_, _, _, _, h⟩ not_complains_nil
  | append_singleton init e ih =>
    by_cases hinit : Complains prefixes init
    · -- the complaint came before the last token
      obtain ⟨finish', place', expected', t', hinit⟩ := hinit
      obtain ⟨read, p, rest, rfl, hpoints, hfails, hread⟩ := ih hinit
      have hsame := hfails (rest ++ [e]) finish
      rw [← List.cons_append, ← List.append_assoc, h] at hsame
      cases hsame
      exact ⟨read, p, rest ++ [e], by simp, hpoints, hfails, hread⟩
    · -- the complaint is about the last token, whatever the fuel
      have hlast {fuel : Nat} (hfuel : 2 * (init ++ [e]).length ≤ fuel) :
          e.1 = t ∧ expected.Points init e.2 place ∧
          ∀ more finish', 2 * (init ++ e :: more).length ≤ fuel →
            parseTokens prefixes (init ++ e :: more) finish' =
              .error ⟨place, .unexpected expected (some t)⟩ := by
        obtain ⟨read, p, rest, heq, hpoints, hfails⟩ := blames_of_fuel hfuel h
        obtain rfl | ⟨rest, e', rfl⟩ := List.eq_nil_or_concat' rest
        · obtain ⟨rfl, he⟩ := List.append_inj' heq rfl
          cases he
          exact ⟨rfl, hpoints, hfails⟩
        · rw [← List.cons_append, ← List.append_assoc] at heq
          obtain ⟨rfl, -⟩ := List.append_inj' heq rfl
          refine absurd ⟨finish, _, _, _, hfails rest finish ?_⟩ hinit
          simp only [List.length_append] at hfuel ⊢
          omega
      obtain ⟨rfl, hpoints, -⟩ := hlast (Nat.le_refl _)
      refine ⟨init, e.2, [], rfl, hpoints, fun more finish' => ?_, hinit⟩
      have hmore : 2 * (init ++ [e]).length ≤ 2 * (init ++ e :: more).length := by
        simp only [List.length_append, List.length_cons, List.length_nil]
        omega
      exact (hlast hmore).2.2 more finish' (Nat.le_refl _)

/-- Whether a complaint has the line and the column of the token that it is about. -/
theorem points_iff {read rest : List (Token × Position)} {p : Position} {text : List Char}
    (hstand : ∀ e ∈ read ++ (t, p) :: rest, Stands {} text e)
    (hordered : (read ++ (t, p) :: rest).Pairwise fun d e => d.2.offset < e.2.offset)
    (h : expected.Points read p place) :
    place.line = p.line ∧ place.column = p.column ↔ expected ≠ .dotOrBrace := by
  cases expected with
  | dotOrBrace =>
    obtain ⟨front, u, rfl⟩ := h
    refine ⟨fun ⟨hline, hcolumn⟩ => ?_, fun hne => absurd rfl hne⟩
    have hlt : place.offset < p.offset :=
      (List.pairwise_append.mp hordered).2.2 (u, place) (by simp) (t, p) (by simp)
    have hsame : place = p :=
      places_differ (hstand (u, place) (by simp)) (hstand (t, p) (by simp)) hline hcolumn
    exact absurd hlt (by rw [hsame]; exact Nat.lt_irrefl _)
  | token | term | iri | prefixName =>
    cases h
    exact ⟨fun _ => by simp, fun _ => ⟨rfl, rfl⟩⟩

/-- **The place of a complaint.** A text whose tokens are not accepted because of a token is rejected
with a message that names it. It is one token of the text: whatever follows it, the complaint is the
same, and of the tokens before it alone there is none. The line and the column that are reported are
those where it starts if and only if the message expects something else than a dot or a brace; if it
does expect these, they are those of the token before. -/
theorem parseWith_complaint {text : String} (htokens : tokensOf (lex text) = .ok tokens)
    (h : parseTokens prefixes tokens (Position.advance {} text.toList) =
      .error ⟨place, .unexpected expected (some t)⟩) :
    parseWith prefixes text = .error (.parse place.line place.column
      ("expected " ++ expected.describe ++ ", found " ++ t.describe)) ∧
    ∃ read p rest before after, tokens = read ++ (t, p) :: rest ∧
      text.toList = before ++ t.text.toList ++ after ∧ p = Position.advance {} before ∧
      (∀ more finish, parseTokens prefixes (read ++ (t, p) :: more) finish =
        .error ⟨place, .unexpected expected (some t)⟩) ∧
      ¬ Complains prefixes read ∧
      (place.line = p.line ∧ place.column = p.column ↔ expected ≠ .dotOrBrace) ∧
      (expected = .dotOrBrace → ∃ front u, read = front ++ [(u, place)]) := by
  refine ⟨by rw [parseWith_of_tokens htokens, h]; rfl, ?_⟩
  obtain ⟨read, p, rest, rfl, hpoints, hfails, hread⟩ := exists_blamed h
  obtain ⟨hstand, hordered⟩ := tokens_stand htokens
  obtain ⟨before, after, n, htext, hplace, hscan⟩ := hstand (t, p) (by simp)
  obtain ⟨⟨after, rfl⟩, -⟩ := spells_scan _ _ _ hscan
  refine ⟨read, p, rest, before, after, rfl, ?_, hplace, hfails, hread,
    points_iff hstand hordered hpoints, fun heq => ?_⟩
  · rw [htext, List.append_assoc]
  · subst heq
    exact hpoints

/-- An object is missing, on the second line. -/
def unfinishedText : String := "<a> <b>\n ."

theorem parseWith_complaint_of_dot : ∃ tokens place,
    tokensOf (lex unfinishedText) = .ok tokens ∧
    parseTokens ∅ tokens (Position.advance {} unfinishedText.toList) =
      .error ⟨place, .unexpected .term (some .dot)⟩ ∧
    parseWith ∅ unfinishedText = .error (.parse place.line place.column "expected term, found '.'") ∧
    place.line = 2 ∧ place.column = 2 := by
  have htokens : tokensOf (lex unfinishedText) =
      .ok [(.iriRef "a", ⟨0, 1, 1⟩), (.iriRef "b", ⟨4, 1, 5⟩), (.dot, ⟨9, 2, 2⟩)] := by rfl
  have hfault : parseTokens ∅ [(.iriRef "a", ⟨0, 1, 1⟩), (.iriRef "b", ⟨4, 1, 5⟩), (.dot, ⟨9, 2, 2⟩)]
      (Position.advance {} unfinishedText.toList) =
        .error ⟨⟨9, 2, 2⟩, .unexpected .term (some .dot)⟩ := by rfl
  exact ⟨_, _, htokens, hfault, (parseWith_complaint htokens hfault).1, rfl, rfl⟩

/-- A sentence of a formula goes on where it should end. -/
def overlongText : String := "\x7b <a> <p> <b> <c> \x7d => \x7b <a> <p> <b> \x7d ."

/-- The only token that the message can mean stands at column 15; reported is the one before it. -/
theorem place_before_token :
    parse overlongText = .error (.parse 1 11 "expected '.' or '\x7d', found '<c>'") ∧
    (tokensOf (lex overlongText)).toOption.map (fun tokens =>
      (tokens.filter (·.1.describe = "'<c>'")).map fun e => (e.2.line, e.2.column)) =
        some [(1, 15)] := by
  constructor <;> decide +kernel

end Documents

end HornReasoner.N3
