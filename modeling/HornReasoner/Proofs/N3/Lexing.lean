import HornReasoner.Proofs.N3.Statements
import Mathlib.Data.List.TakeWhile

/-! Texts and their tokens.

A text is lexed step by step: blanks are dropped, and otherwise its longest token is found
(`Lexes`). So much is true of the lexer for every kind of token, with what may follow it as a
condition, and a text that is put together from such pieces is split into them again. -/
namespace HornReasoner.N3

/-! ### Runs of characters -/

/-- The next character, if there is one, is not of this kind. -/
def Stops (p : Char → Bool) (rest : List Char) : Prop := ∀ c ∈ rest.head?, p c = false

theorem Stops.cons {p : Char → Bool} {c : Char} {rest : List Char} (h : p c = false) :
    Stops p (c :: rest) := fun d hd => by cases hd; exact h

/-- A run ends where its kind of character does. -/
theorem takeWhile_run {p : Char → Bool} {run rest : List Char} (hrun : ∀ c ∈ run, p c = true)
    (hrest : Stops p rest) : (run ++ rest).takeWhile p = run := by
  rw [List.takeWhile_append_of_pos hrun]
  cases rest with
  | nil => rw [List.takeWhile_nil, List.append_nil]
  | cons c rest =>
    rw [List.takeWhile_cons_of_neg (by rw [hrest c rfl]; decide), List.append_nil]

/-! ### The kinds of tokens -/

/-- A name or a label: a letter, a digit or an underscore, and behind it hyphens as well. -/
def IsLabel (label : List Char) : Prop :=
  ∃ c rest, label = c :: rest ∧ isNameStart c = true ∧ ∀ d ∈ rest, isNamePart d = true

/-- The name of a variable: a letter or an underscore, and behind it digits as well. -/
def IsVariableName (name : List Char) : Prop :=
  ∃ c rest, name = c :: rest ∧ (c.isAlpha || c = '_') = true ∧ ∀ d ∈ rest, isNameStart d = true

/-- A language tag: letters, and parts of letters and digits behind hyphens. -/
def IsTag (tag : List Char) : Prop :=
  ∃ (first : List Char) (parts : List (List Char)), tag = first ++ parts.flatMap ('-' :: ·) ∧
    (first ≠ [] ∧ ∀ c ∈ first, c.isAlpha = true) ∧
    ∀ part ∈ parts, part ≠ [] ∧ ∀ c ∈ part, c.isAlphanum = true

def IsIri (iri : List Char) : Prop := ∀ c ∈ iri, isIriPart c = true

theorem scan_iri {iri : List Char} (h : IsIri iri) (rest : List Char) :
    scan ('<' :: iri ++ '>' :: rest) = .token (.iriRef (String.ofList iri)) (iri.length + 2) := by
  show scanIri (iri ++ '>' :: rest) = _
  rw [scanIri, takeWhile_run h (.cons rfl)]
  simp

theorem scan_underscore (behind : List Char) :
    scan ('_' :: ':' :: behind) = match localName behind with
      | [] => .unknown 1
      | label => .token (.blankLabel (String.ofList label)) (2 + label.length) := rfl

theorem scan_label {label rest : List Char} (h : IsLabel label) (hrest : Stops isNamePart rest) :
    scan ('_' :: ':' :: label ++ rest) =
      .token (.blankLabel (String.ofList label)) (label.length + 2) := by
  obtain ⟨c, label, rfl, hc, hlabel⟩ := h
  have hname : localName (c :: label ++ rest) = c :: label := by
    rw [List.cons_append, localName, if_pos hc, takeWhile_run hlabel hrest]
  rw [List.cons_append, List.cons_append, scan_underscore, hname]
  simp [Nat.add_comm]

theorem scan_variable {name rest : List Char} (h : IsVariableName name)
    (hrest : Stops isNameStart rest) :
    scan ('?' :: name ++ rest) = .token (.var (String.ofList name)) (name.length + 1) := by
  obtain ⟨c, name, rfl, hc, hname⟩ := h
  show (if (c.isAlpha || c = '_') = true then
      Found.token (.var (String.ofList (c :: (name ++ rest).takeWhile isNameStart)))
        (1 + (c :: (name ++ rest).takeWhile isNameStart).length)
    else .unknown 1) = _
  rw [if_pos hc, takeWhile_run hname hrest, Nat.add_comm]

/-! ### Strings -/

theorem stringBody_escape (text rest : List Char) (h : '\n' ∉ text) :
    stringBody (Literal.escape text ++ '"' :: rest) = (Literal.escape text, true) := by
  induction text with
  | nil => rfl
  | cons c text ih =>
    have hne : c ≠ '\n' := fun heq => h (heq ▸ List.mem_cons_self)
    have ih := ih fun hm => h (List.mem_cons_of_mem c hm)
    simp only [Literal.escape] at ih ⊢
    by_cases hc : c = '\\' ∨ c = '"'
    · simp [List.flatMap_cons, hc, stringBody, hne, ih]
    · obtain ⟨hback, hquote⟩ := not_or.mp hc
      simp [List.flatMap_cons, hback, hquote, stringBody, hne, ih]

theorem unescape_escape (text : List Char) : unescape (Literal.escape text) = text := by
  induction text with
  | nil => rfl
  | cons c text ih =>
    simp only [Literal.escape] at ih ⊢
    by_cases hc : c = '\\' ∨ c = '"'
    · rcases hc with rfl | rfl <;> simp [List.flatMap_cons, unescape, ih]
    · obtain ⟨hback, hquote⟩ := not_or.mp hc
      simp [List.flatMap_cons, hback, hquote, unescape, ih]

theorem scan_string {text : List Char} (h : '\n' ∉ text) (rest : List Char) :
    scan ('"' :: Literal.escape text ++ '"' :: rest) =
      .token (.string (String.ofList (Literal.escape text))) ((Literal.escape text).length + 2) := by
  show scanString (Literal.escape text ++ '"' :: rest) = _
  rw [scanString, stringBody_escape text rest h]

/-! ### Language tags -/

/-- A tag goes on with such a character. -/
def isTagPart (c : Char) : Bool := c.isAlphanum || c = '-'

theorem Stops.mono {p q : Char → Bool} {rest : List Char} (h : Stops p rest)
    (hpq : ∀ c, q c = true → p c = true) : Stops q rest := fun c hc => by
  have hp := h c hc
  by_contra hq
  rw [hpq c (by simpa using hq)] at hp
  cases hp

theorem subtags_parts {parts : List (List Char)} {rest : List Char} {fuel : Nat}
    (hparts : ∀ part ∈ parts, part ≠ [] ∧ ∀ c ∈ part, c.isAlphanum = true)
    (hrest : Stops isTagPart rest) (hfuel : parts.length ≤ fuel) :
    subtags fuel (parts.flatMap ('-' :: ·) ++ rest) = parts.flatMap ('-' :: ·) := by
  induction parts generalizing fuel with
  | nil =>
    cases fuel with
    | zero => rfl
    | succ fuel =>
      cases rest with
      | nil => rfl
      | cons c rest =>
        have hc : c ≠ '-' := fun heq => by
          have := hrest c rfl
          rw [heq] at this
          cases this
        rw [List.flatMap_nil, List.nil_append, subtags]
        intro rest' heq
        cases heq
        exact hc rfl
  | cons part parts ih =>
    obtain ⟨hpart, hothers⟩ := List.forall_mem_cons.mp hparts
    obtain ⟨fuel, rfl⟩ : ∃ f, fuel = f + 1 := ⟨fuel - 1, by simp at hfuel; omega⟩
    have hnext : Stops Char.isAlphanum (parts.flatMap ('-' :: ·) ++ rest) := by
      cases parts with
      | nil => exact hrest.mono fun c hc => by simp [isTagPart, hc]
      | cons other parts => exact .cons rfl
    rw [List.flatMap_cons, List.append_assoc, List.cons_append, subtags,
      takeWhile_run hpart.2 hnext]
    have hfuel : parts.length ≤ fuel := by simpa using hfuel
    have ih := ih hothers hfuel
    cases part with
    | nil => exact absurd rfl hpart.1
    | cons c part => simp [ih]

theorem length_le_parts (parts : List (List Char)) :
    parts.length ≤ (parts.flatMap ('-' :: ·)).length := by
  induction parts with
  | nil => exact Nat.zero_le _
  | cons part parts ih =>
    rw [List.flatMap_cons, List.length_append, List.length_cons, List.length_cons]
    omega

theorem scan_tag {tag rest : List Char} (h : IsTag tag) (hrest : Stops isTagPart rest)
    (hdirective : tag ≠ "prefix".toList) (hbase : tag ≠ "base".toList) :
    scan ('@' :: tag ++ rest) = .token (.langTag (String.ofList tag)) (tag.length + 1) := by
  obtain ⟨first, parts, rfl, ⟨hne, hfirst⟩, hparts⟩ := h
  have hnext : Stops Char.isAlpha (parts.flatMap ('-' :: ·) ++ rest) := by
    cases parts with
    | nil => exact hrest.mono fun c hc => by simp [isTagPart, Char.isAlphanum, hc]
    | cons part parts => exact .cons rfl
  have hlength : parts.length ≤ (first ++ parts.flatMap ('-' :: ·) ++ rest).length := by
    have := length_le_parts parts
    simp only [List.length_append]
    omega
  show scanAt (first ++ parts.flatMap ('-' :: ·) ++ rest) = _
  rw [List.append_assoc] at hlength ⊢
  rw [scanAt, takeWhile_run hfirst hnext]
  cases first with
  | nil => exact absurd rfl hne
  | cons c first =>
    have hdrop : (c :: first ++ (parts.flatMap ('-' :: ·) ++ rest)).drop (c :: first).length =
        parts.flatMap ('-' :: ·) ++ rest := List.drop_left
    simp only [hdrop, subtags_parts hparts hrest hlength, if_neg hdirective, if_neg hbase]

/-! ### Texts -/

/-- The tokens of a text, one blank or one token at a time. -/
inductive Lexes : List Char → List Token → Prop where
  | nil : Lexes [] []
  | blank {c : Char} {s : List Char} {ts : List Token} (h : isBlank c = true) (rest : Lexes s ts) :
    Lexes (c :: s) ts
  | token {c : Char} (text : List Char) {s : List Char} {t : Token} {ts : List Token}
    (h : scan (c :: text ++ s) = .token t (text.length + 1)) (rest : Lexes s ts) :
    Lexes (c :: text ++ s) (t :: ts)

theorem scan_blank {c : Char} {rest : List Char} (h : isBlank c = true) :
    scan (c :: rest) = .skipped (1 + (rest.takeWhile isBlank).length) := if_pos h

/-- A blank belongs to no name, label or tag. -/
theorem isNamePart_of_isBlank {c : Char} (h : isBlank c = true) : isNamePart c = false := by
  simp only [isBlank, Bool.or_eq_true, decide_eq_true_eq] at h
  rcases h with (((rfl | rfl) | rfl) | rfl) | rfl <;> rfl

namespace Lexes
variable {s : List Char} {ts : List Token}

/-- All blanks in front may be dropped at once. -/
theorem dropWhile (h : Lexes s ts) : Lexes (s.dropWhile isBlank) ts := by
  induction h with
  | nil => exact .nil
  | blank hc rest ih => rwa [List.dropWhile_cons_of_pos hc]
  | @token c text s t ts hscan rest ih =>
    have hc : isBlank c = false := by
      by_contra hblank
      rw [List.cons_append, scan_blank (by simpa using hblank)] at hscan
      cases hscan
    rw [List.cons_append, List.dropWhile_cons_of_neg (by rw [hc]; decide)]
    exact .token text hscan rest

theorem tokensOf_lexFrom {fuel : Nat} (place : Position) (hfuel : s.length ≤ fuel)
    (h : Lexes s ts) : ∃ tokens, tokensOf (lexFrom fuel place s) = .ok tokens ∧
      tokens.map Prod.fst = ts := by
  induction fuel generalizing s ts place with
  | zero =>
    cases List.eq_nil_of_length_eq_zero (Nat.le_zero.mp hfuel)
    cases h
    exact ⟨[], rfl, rfl⟩
  | succ fuel ih =>
    cases h with
    | nil => exact ⟨[], rfl, rfl⟩
    | @blank c s _ hc rest =>
      have hdrop : (c :: s).drop (1 + (s.takeWhile isBlank).length) = s.dropWhile isBlank := by
        rw [Nat.add_comm, List.drop_succ_cons]
        exact (congrArg (List.drop _) List.takeWhile_append_dropWhile.symm).trans List.drop_left
      have hlength := (List.dropWhile_suffix (l := s) isBlank).length_le
      rw [lexFrom]
      · simp only [scan_blank hc, Found.length, hdrop]
        exact ih _ (by simp only [List.length_cons] at hfuel; omega) rest.dropWhile
      · simp
    | @token c text s t ts hscan rest =>
      have hdrop : (c :: text ++ s).drop (text.length + 1) = s := by simp
      obtain ⟨tokens, hothers, rfl⟩ :=
        ih (place.advance ((c :: text ++ s).take (text.length + 1))) (by simp at hfuel; omega) rest
      refine ⟨(t, place) :: tokens, ?_, rfl⟩
      rw [lexFrom]
      · simp only [hscan, Found.length, hdrop, tokensOf, hothers]
        rfl
      · simp

/-! ### One token and the text behind it -/

variable {rest : List Char}

theorem iri {iri : String} (h : IsIri iri.toList) (hrest : Lexes rest ts) :
    Lexes ('<' :: iri.toList ++ '>' :: rest) (.iriRef iri :: ts) := by
  have hscan := scan_iri h rest
  rw [String.ofList_toList] at hscan
  simpa using hrest.token (iri.toList ++ ['>']) (by simpa using hscan)

theorem label {label : String} (h : IsLabel label.toList) (hstops : Stops isNamePart rest)
    (hrest : Lexes rest ts) : Lexes ('_' :: ':' :: label.toList ++ rest) (.blankLabel label :: ts) := by
  have hscan := scan_label h hstops
  rw [String.ofList_toList] at hscan
  exact hrest.token (':' :: label.toList) hscan

theorem var {name : String} (h : IsVariableName name.toList) (hstops : Stops isNameStart rest)
    (hrest : Lexes rest ts) : Lexes ('?' :: name.toList ++ rest) (.var name :: ts) := by
  have hscan := scan_variable h hstops
  rw [String.ofList_toList] at hscan
  exact hrest.token _ hscan

theorem string {text : List Char} (h : '\n' ∉ text) (hrest : Lexes rest ts) :
    Lexes ('"' :: Literal.escape text ++ '"' :: rest)
      (.string (String.ofList (Literal.escape text)) :: ts) := by
  have hscan := scan_string h rest
  simpa using hrest.token (Literal.escape text ++ ['"']) (by simpa using hscan)

theorem tag {tag : String} (h : IsTag tag.toList) (hdirective : tag ≠ "prefix") (hbase : tag ≠ "base")
    (hstops : Stops isTagPart rest) (hrest : Lexes rest ts) :
    Lexes ('@' :: tag.toList ++ rest) (.langTag tag :: ts) := by
  have hscan := scan_tag h hstops (fun heq => hdirective (String.toList_inj.mp heq))
    (fun heq => hbase (String.toList_inj.mp heq))
  rw [String.ofList_toList] at hscan
  exact hrest.token _ hscan

end Lexes

/-- Behind the lexer, a fault is only reported in another form. -/
theorem parseWith_of_tokens {prefixes : SortedMap String String} {text : String}
    {tokens : List (Token × Position)} (h : tokensOf (lex text) = .ok tokens) :
    parseWith prefixes text =
      (parseTokens prefixes tokens (Position.advance {} text.toList)).mapError Fault.toError := by
  rw [parseWith, h]
  have hread : (Except.ok tokens >>= fun tokens =>
      parseTokens prefixes tokens (Position.advance {} text.toList)) =
      parseTokens prefixes tokens (Position.advance {} text.toList) := rfl
  rw [hread]
  cases parseTokens prefixes tokens (Position.advance {} text.toList) <;> rfl

/-- A text that is parsed has tokens, which are parsed. -/
theorem tokens_of_parseWith {prefixes : SortedMap String String} {text : String} {r : Ruleset}
    (h : parseWith prefixes text = .ok r) : ∃ tokens, tokensOf (lex text) = .ok tokens ∧
      parseTokens prefixes tokens (Position.advance {} text.toList) = .ok r := by
  cases hlex : tokensOf (lex text) with
  | error fault =>
    rw [parseWith, hlex] at h
    cases h
  | ok tokens =>
    refine ⟨tokens, rfl, ?_⟩
    rw [parseWith_of_tokens hlex] at h
    cases hread : parseTokens prefixes tokens (Position.advance {} text.toList) with
    | error fault =>
      rw [hread] at h
      cases h
    | ok found =>
      rw [hread] at h
      cases h
      rfl

/-- A text with the tokens of a document is parsed. -/
theorem parse_of_lexes {text : String} {d : Document} (h : Lexes text.toList d.tokens)
    (hadmissible : d.Admissible ⟨∅, none⟩ 0) :
    ∃ places, parse text = .ok (d.ruleset ⟨∅, none⟩ 0 places) := by
  obtain ⟨tokens, hlex, htokens⟩ := h.tokensOf_lexFrom {} (Nat.le_refl _)
  refine ⟨tokens.map Prod.snd, ?_⟩
  rw [parse, parseWith_of_tokens hlex,
    parseTokens_of_document (Position.advance {} text.toList) htokens.symm hadmissible]
  rfl

end HornReasoner.N3
