import HornReasoner.Proofs.N3.Places
import HornReasoner.Proofs.N3.Trees
import HornReasoner.Proofs.Rdf.Renaming

/-! The labels of rules.

A rule has the line and the column of its statement's first brace for a label. Statements take one
token after the other, so these places are some of the tokens' places in order
(`Document.rulePlaces_sublist`), and no two of them are the same. -/
namespace HornReasoner.N3

theorem colon_not_mem_toString (n : Nat) : ':' ∉ (toString n).toList := fun hm => by
  rw [Nat.toString_eq_repr, Nat.toList_repr] at hm
  exact absurd (Nat.isDigit_of_mem_toDigits (by decide) (by decide) hm) (by decide)

/-- A label tells its line and its column. -/
theorem Read.ruleLabel_inj {p q : Position} :
    ruleLabel p = ruleLabel q ↔ p.line = q.line ∧ p.column = q.column := by
  refine ⟨fun heq => ?_, fun ⟨hline, hcolumn⟩ => by rw [ruleLabel, ruleLabel, hline, hcolumn]⟩
  have hchars := congrArg String.toList heq
  simp only [ruleLabel, String.toList_append, List.append_assoc] at hchars
  have hnumbers : (toString p.line).toList ++ ':' :: (toString p.column).toList =
      (toString q.line).toList ++ ':' :: (toString q.column).toList := List.append_cancel_left hchars
  obtain ⟨hline, _, hcolumn⟩ := (List.append_cons_inj_of_notMem (colon_not_mem_toString p.line)
    (colon_not_mem_toString p.column)).mp hnumbers
  exact ⟨toString_injective (String.toList_injective hline),
    toString_injective (String.toList_injective hcolumn)⟩

namespace Document

/-- Where the formula statements start, of the places of all tokens. -/
def rulePlaces (places : List Position) : Document → List Position
  | [] => []
  | s :: rest =>
    (if s.isRule then [places.headD {}] else []) ++ rulePlaces (places.drop s.tokens.length) rest

theorem tokens_append (d₁ d₂ : Document) : tokens (d₁ ++ d₂) = d₁.tokens ++ d₂.tokens :=
  List.flatMap_append

theorem labels_rule (first : Block) (arrow : Arrow) (second : Block) (scope : Scope)
    (before : Nat) (place : Position) :
    ((Statement.rule first arrow second).rules scope before place).map HornRule.label =
      [Read.ruleLabel place] := by
  rw [Statement.rules]
  cases arrow.reversed <;> rfl

theorem labels_eq (d : Document) (scope : Scope) (before : Nat) (places : List Position) :
    (d.ruleset scope before places).rules.map HornRule.label =
      (d.rulePlaces places).map Read.ruleLabel := by
  induction d generalizing scope before places with
  | nil => rfl
  | cons s rest ih =>
    have hone : (s.rules scope before (places.headD {})).map HornRule.label =
        (if s.isRule then [places.headD {}] else []).map Read.ruleLabel := by
      cases s with
      | rule first arrow second => exact labels_rule first arrow second scope before _
      | declare | base | facts => rfl
    rw [ruleset, List.map_append, ih, hone, rulePlaces, List.map_append]

theorem rulePlaces_sublist (d : Document) {places : List Position}
    (h : places.length = d.tokens.length) : (d.rulePlaces places).Sublist places := by
  induction d generalizing places with
  | nil => exact List.nil_sublist _
  | cons s rest ih =>
    obtain ⟨t, others, htokens⟩ := s.tokens_eq
    rw [tokens, List.flatMap_cons, List.length_append] at h
    have hrest : (rulePlaces (places.drop s.tokens.length) rest).Sublist
        (places.drop s.tokens.length) := ih (by rw [List.length_drop, h, Nat.add_sub_cancel_left]; rfl)
    cases places with
    | nil =>
      rw [htokens, List.length_nil, List.length_cons] at h
      omega
    | cons place places =>
      rw [htokens, List.length_cons, List.drop_succ_cons] at hrest
      rw [rulePlaces, htokens, List.length_cons, List.drop_succ_cons, List.headD_cons]
      have hbehind := hrest.trans (List.drop_sublist others.length places)
      split
      · exact hbehind.cons_cons place
      · exact hbehind.cons place

/-- The rule of a formula statement, and how many come before it. -/
theorem rules_split (d₁ d₂ : Document) {s : Statement} (hrule : s.isRule = true)
    (scope : Scope) (before : Nat) (places : List Position) :
    ∃ rule scope' before', s.rules scope' before' ((places.drop d₁.tokens.length).headD {}) = [rule] ∧
      ((d₁ ++ s :: d₂).ruleset scope before places).rules[d₁.countP Statement.isRule]? =
        some rule := by
  induction d₁ generalizing scope before places with
  | nil =>
    obtain ⟨rule, hone⟩ : ∃ rule, s.rules scope before (places.headD {}) = [rule] := by
      cases s with
      | rule first arrow second => exact ⟨_, rfl⟩
      | declare | base | facts => cases hrule
    refine ⟨rule, scope, before, hone, ?_⟩
    rw [List.nil_append, ruleset, hone]
    rfl
  | cons s' rest ih =>
    obtain ⟨rule, scope', before', hone, hrules⟩ :=
      ih (s'.scope scope) (before + s'.brackets) (places.drop s'.tokens.length)
    refine ⟨rule, scope', before', ?_, ?_⟩
    · rw [← hone, List.drop_drop, tokens, List.flatMap_cons, List.length_append]
      rfl
    · have hlength : (s'.rules scope before (places.headD {})).length = if s'.isRule then 1 else 0 := by
        cases s' <;> rfl
      rw [List.cons_append, ruleset, List.countP_cons, List.getElem?_append_right (by omega), hlength,
        Nat.add_sub_cancel, hrules]

end Document

/-- **The labels of rules.** No two rules of a text have the same label. Each is the rule of one
formula statement, in order, and its label is made of the line and the byte column where that
statement's first brace stands. Only one place of the text has this line and column. -/
theorem parseWith_labels {prefixes : SortedMap String String} {text : String} {r : Ruleset}
    (h : parseWith prefixes text = .ok r) :
    (r.rules.map HornRule.label).Nodup ∧
    (∃ (tokens : List (Token × Position)) (d : Document),
      tokensOf (lex text) = .ok tokens ∧ d.tokens = tokens.map Prod.fst ∧
      r.rules.length = d.countP Statement.isRule ∧
      ∀ (d₁ : Document) (first : Block) (arrow : Arrow) (second : Block) (d₂ : Document),
        d = d₁ ++ .rule first arrow second :: d₂ →
        ∃ (rule : HornRule) (scope : Scope) (n : Nat) (before after : List Char),
          r.rules[d₁.countP Statement.isRule]? = some rule ∧
          text.toList = before ++ '\x7b' :: after ∧
          tokens[d₁.tokens.length]? = some (.lbrace, Position.advance {} before) ∧
          (Statement.rule first arrow second).rules scope n (Position.advance {} before) = [rule] ∧
          rule.label = "n3:" ++ toString (1 + before.count '\n') ++ ":" ++
            toString (1 + String.utf8Len (lastLine before))) ∧
    ∀ cs ds, cs <+: text.toList → ds <+: text.toList →
      (Position.advance {} cs).line = (Position.advance {} ds).line →
      (Position.advance {} cs).column = (Position.advance {} ds).column → cs = ds := by
  obtain ⟨tokens, htokens, hread⟩ := tokens_of_parseWith h
  obtain ⟨d, hd, _, rfl⟩ := document_of_parseTokens hread
  obtain ⟨hstand, hordered⟩ := tokens_stand htokens
  refine ⟨?_, ⟨tokens, d, htokens, hd, d.length_rules _ _ _, ?_⟩,
    fun _ _ hcs hds => Position.eq_of_line_column hcs hds⟩
  · have hplaces : (tokens.map Prod.snd).Pairwise fun p q => Read.ruleLabel p ≠ Read.ruleLabel q := by
      refine List.pairwise_map.mpr (hordered.imp_of_mem fun {e e'} he he' hlt heq => ?_)
      obtain ⟨hline, hcolumn⟩ := Read.ruleLabel_inj.mp heq
      rw [places_differ (hstand e he) (hstand e' he') hline hcolumn] at hlt
      exact Nat.lt_irrefl _ hlt
    rw [d.labels_eq]
    refine List.pairwise_map.mpr (hplaces.sublist (d.rulePlaces_sublist ?_))
    rw [hd, List.length_map, List.length_map]
  · rintro d₁ first arrow second d₂ rfl
    have hformula : (Statement.rule first arrow second).isRule = true := rfl
    obtain ⟨rule, scope, n, hone, hrule⟩ :=
      d₁.rules_split d₂ hformula ⟨prefixes, none⟩ 0 (tokens.map Prod.snd)
    have hfirst : (tokens.map Prod.fst)[d₁.tokens.length]? = some .lbrace := by
      rw [← hd, Document.tokens_append, List.getElem?_append_right (Nat.le_refl _), Nat.sub_self]
      rfl
    rw [List.getElem?_map, Option.map_eq_some_iff] at hfirst
    obtain ⟨e, he, hbrace⟩ := hfirst
    obtain ⟨before, after, _, htext, hplace, hscan⟩ := hstand e (List.mem_of_getElem? he)
    obtain ⟨⟨after, rfl⟩, -⟩ := spells_scan _ _ _ (hbrace ▸ hscan)
    rw [List.headD_eq_head?_getD, List.head?_drop, List.getElem?_map, he] at hone
    obtain rfl : e = (.lbrace, Position.advance {} before) := Prod.ext hbrace hplace
    refine ⟨rule, scope, n, before, after, hrule, htext, he, hone, ?_⟩
    have hlabel := congrArg (List.map HornRule.label) hone
    rw [Document.labels_rule] at hlabel
    rw [← (List.cons.inj hlabel).1]
    show Read.ruleLabel (Position.advance {} before) = _
    rw [Read.ruleLabel, Position.line_advance, Position.column_advance]

/-- A formula behind a character of two bytes, and one on the next line, which is read backwards. -/
def labelledText : String :=
  "<a> <p> \"é\" . \x7b ?x <p> ?y \x7d => \x7b ?y <p> ?x \x7d .\n" ++
    " \x7b ?x <q> ?y \x7d <= \x7b ?y <q> ?x \x7d ."

theorem parseWith_labels_of_lines : ∃ r, parseWith ∅ labelledText = .ok r ∧
    r.rules.map HornRule.label = ["n3:1:16", "n3:2:2"] ∧ (r.rules.map HornRule.label).Nodup := by
  have hlabels : (parseWith ∅ labelledText).toOption.map (·.rules.map HornRule.label) =
      some ["n3:1:16", "n3:2:2"] := by decide +kernel
  cases hparse : parseWith ∅ labelledText with
  | error fault =>
    rw [hparse] at hlabels
    cases hlabels
  | ok r =>
    rw [hparse] at hlabels
    exact ⟨r, rfl, Option.some.inj hlabels, (parseWith_labels hparse).1⟩

end HornReasoner.N3
