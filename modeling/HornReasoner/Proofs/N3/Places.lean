import HornReasoner.Proofs.N3.Lexing
import Mathlib.Data.List.DropRight
import Mathlib.Data.String.Basic

/-! The places of tokens.

A token is what the text starts with where it was found (`spells_scan`), thus it is not empty and
each token stands behind the one before it (`tokens_stand`). A place is told by its line and its
column: columns count bytes from the last line break, and between two places of one line there is
nothing but the bytes by which their columns differ (`Position.eq_of_line_column`). -/
namespace HornReasoner.N3

/-! ### The text of a token -/

/-- A piece, and a piece of what is behind it. -/
theorem append_prefix_of_drop {piece next s : List Char} (h : piece <+: s)
    (hnext : next <+: s.drop piece.length) : piece ++ next <+: s := by
  obtain ⟨rest, rfl⟩ := h
  rw [List.drop_left] at hnext
  exact (List.prefix_append_right_inj piece).mpr hnext

theorem localName_isPrefix (s : List Char) : localName s <+: s := by
  cases s with
  | nil => exact List.prefix_rfl
  | cons c rest =>
    rw [localName]
    split
    · exact (List.prefix_cons_inj _).mpr (List.takeWhile_prefix _)
    · exact List.nil_prefix

theorem stringBody_isPrefix {s body : List Char} (h : stringBody s = (body, true)) :
    body ++ ['"'] <+: s := by
  fun_induction stringBody s generalizing body with
  | case1 | case2 | case3 | case6 => cases h
  | case4 =>
    rename_i ih
    obtain ⟨rfl, hclosed⟩ := Prod.mk.inj h
    exact (List.prefix_cons_inj _).mpr ((List.prefix_cons_inj _).mpr (ih (Prod.ext rfl hclosed)))
  | case5 =>
    cases h
    exact (List.prefix_cons_inj _).mpr List.nil_prefix
  | case7 =>
    rename_i ih
    obtain ⟨rfl, hclosed⟩ := Prod.mk.inj h
    exact (List.prefix_cons_inj _).mpr (ih (Prod.ext rfl hclosed))

theorem subtags_isPrefix (fuel : Nat) (s : List Char) : subtags fuel s <+: s := by
  fun_induction subtags fuel s with
  | case1 | case2 | case4 => exact List.nil_prefix
  | case3 fuel rest _ ih =>
    exact (List.prefix_cons_inj _).mpr (append_prefix_of_drop (List.takeWhile_prefix _) ih)

theorem fraction_isPrefix (s : List Char) : fraction s <+: s := by
  fun_cases fraction s with
  | case1 | case3 => exact List.nil_prefix
  | case2 => exact (List.prefix_cons_inj _).mpr (List.takeWhile_prefix _)

theorem exponent_isPrefix (s : List Char) : exponent s <+: s := by
  fun_cases exponent s with
  | case1 | case5 | case6 | case7 => exact List.nil_prefix
  | case2 =>
    exact (List.prefix_cons_inj _).mpr ((List.prefix_cons_inj _).mpr (List.takeWhile_prefix _))
  | case3 | case4 =>
    split
    · exact List.nil_prefix
    · exact (List.prefix_cons_inj _).mpr (List.takeWhile_prefix _)

/-- A token that is found is what the text starts with. -/
def Found.Spells (s : List Char) (found : Found) : Prop :=
  ∀ t n, found = .token t n → t.text.toList <+: s ∧ n = t.text.toList.length ∧ 0 < n

namespace Found
variable {s : List Char} {t : Token} {n : Nat}

theorem spells_skipped : (skipped n).Spells s := fun _ _ h => by cases h

theorem spells_unknown : (unknown n).Spells s := fun _ _ h => by cases h

theorem spells_token (piece : List Char) (ht : t.text.toList = piece) (hn : n = piece.length)
    (hne : piece ≠ []) (h : piece <+: s) : (token t n).Spells s := by
  rintro _ _ ⟨⟩
  rw [ht, hn]
  exact ⟨h, rfl, List.length_pos_iff.mpr hne⟩

theorem spells_ite {p : Prop} [Decidable p] {f g : Found} (hf : p → f.Spells s)
    (hg : ¬ p → g.Spells s) : (if p then f else g).Spells s := by
  split
  · exact hf ‹_›
  · exact hg ‹_›

end Found

open Found

theorem spells_scanIri (rest : List Char) : (scanIri rest).Spells ('<' :: rest) := by
  have hiri := List.takeWhile_prefix isIriPart (l := rest)
  rw [scanIri]
  split
  · next behind hclose =>
    refine spells_token ('<' :: rest.takeWhile isIriPart ++ ['>']) ?_ ?_ (List.cons_ne_nil _ _) ?_
    · simp [Token.text]
    · simp
    · refine (List.prefix_cons_inj _).mpr (append_prefix_of_drop hiri ?_)
      rw [hclose]
      exact (List.prefix_cons_inj _).mpr List.nil_prefix
  · refine spells_ite (fun heq => ?_) fun _ => spells_unknown
    rw [heq] at hiri
    exact spells_token _ rfl rfl (List.cons_ne_nil _ _) ((List.prefix_cons_inj _).mpr hiri)

theorem spells_scanString (rest : List Char) : (scanString rest).Spells ('"' :: rest) := by
  rw [scanString]
  split
  · next body hbody =>
    refine spells_token ('"' :: body ++ ['"']) ?_ ?_ (List.cons_ne_nil _ _) ?_
    · simp [Token.text]
    · simp
    · exact (List.prefix_cons_inj _).mpr (stringBody_isPrefix hbody)
  · exact spells_unknown

theorem spells_scanAt (rest : List Char) : (scanAt rest).Spells ('@' :: rest) := by
  have hfirst := List.takeWhile_prefix Char.isAlpha (l := rest)
  rw [scanAt]
  split
  · exact spells_unknown
  · next first hne =>
    have htag := append_prefix_of_drop hfirst (subtags_isPrefix rest.length _)
    refine spells_token ('@' :: _) ?_ rfl (List.cons_ne_nil _ _) ((List.prefix_cons_inj _).mpr htag)
    split
    · next heq =>
      rw [heq]
      rfl
    · split
      · next heq =>
        rw [heq]
        rfl
      · simp [Token.text]

theorem spells_scanNumber (sign rest : List Char) :
    (scanNumber sign rest).Spells (sign ++ rest) := by
  have hwhole := List.takeWhile_prefix Char.isDigit (l := rest)
  rw [scanNumber]
  split
  · exact spells_unknown
  · next hne =>
    have hpart := append_prefix_of_drop hwhole (fraction_isPrefix _)
    have hpower := append_prefix_of_drop hpart (exponent_isPrefix _)
    rw [List.length_append] at hpower
    have hdigits := (List.prefix_append_right_inj sign).mpr hpower
    simp only [← List.append_assoc] at hdigits
    refine spells_token _ ?_ rfl (fun hnil => hne ?_) hdigits
    · split
      · exact String.toList_ofList
      · split <;> exact String.toList_ofList
    · rw [List.append_eq_nil_iff, List.append_eq_nil_iff, List.append_eq_nil_iff] at hnil
      exact hnil.1.1.2

theorem spells_scanWord (s : List Char) : (scanWord s).Spells s := by
  have hword := List.takeWhile_prefix isNamePart (l := s)
  have hkeyword (t : Token) {n : Nat} (h : s.takeWhile isNamePart = t.text.toList)
      (hn : n = t.text.toList.length) (hne : t.text.toList ≠ []) :
      (Found.token t n).Spells s :=
    spells_token _ rfl hn hne (h ▸ hword)
  rw [scanWord]
  split
  · next behind hcolon =>
    refine spells_token (s.takeWhile isNamePart ++ ':' :: localName behind) ?_ ?_ (by simp) ?_
    · simp [Token.text]
    · simp
      omega
    · refine append_prefix_of_drop hword ?_
      rw [hcolon]
      exact (List.prefix_cons_inj _).mpr (localName_isPrefix _)
  · refine spells_ite (hkeyword .a · rfl (by decide)) fun _ => ?_
    refine spells_ite (hkeyword .trueKeyword · rfl (by decide)) fun _ => ?_
    exact spells_ite (hkeyword .falseKeyword · rfl (by decide)) fun _ => spells_unknown

theorem spells_scan (s : List Char) : (scan s).Spells s := by
  cases s with
  | nil => exact spells_skipped
  | cons c rest =>
    have hone (t : Token) (ht : t.text.toList = [c]) : (Found.token t 1).Spells (c :: rest) :=
      spells_token _ ht rfl (List.cons_ne_nil _ _) ((List.prefix_cons_inj _).mpr List.nil_prefix)
    have htwo (t : Token) {d : Char} {behind : List Char} (ht : t.text.toList = [c, d]) :
        (Found.token t 2).Spells (c :: d :: behind) :=
      spells_token _ ht rfl (List.cons_ne_nil _ _) (List.prefix_append [c, d] behind)
    rw [scan.eq_def]
    refine spells_ite (fun _ => spells_skipped) fun _ => ?_
    refine spells_ite (fun _ => spells_skipped) fun _ => ?_
    refine spells_ite (fun _ => spells_scanWord _) fun _ => ?_
    refine spells_ite (fun h => h ▸ spells_scanIri rest) fun _ => ?_
    refine spells_ite (fun h => h ▸ spells_scanString rest) fun _ => ?_
    refine spells_ite (fun h => h ▸ spells_scanAt rest) fun _ => ?_
    refine spells_ite (fun _ => spells_scanNumber [] _) fun _ => ?_
    refine spells_ite (fun _ => spells_scanNumber [c] _) fun _ => ?_
    refine spells_ite (fun h => ?_) fun _ => ?_
    · subst h
      refine spells_token (':' :: localName rest) ?_ (Nat.add_comm 1 _) (List.cons_ne_nil _ _)
        ((List.prefix_cons_inj _).mpr (localName_isPrefix rest))
      simp [Token.text]
    refine spells_ite (fun h => ?_) fun _ => ?_
    · subst h
      split
      · next behind =>
        split
        · exact spells_unknown
        · refine spells_token ('_' :: ':' :: localName behind) ?_ (Nat.add_comm 2 _)
            (List.cons_ne_nil _ _)
            ((List.prefix_append_right_inj ['_', ':']).mpr (localName_isPrefix behind))
          simp [Token.text]
      · exact spells_unknown
    refine spells_ite (fun h => ?_) fun _ => ?_
    · subst h
      split
      · next d behind =>
        refine spells_ite (fun _ => ?_) fun _ => spells_unknown
        refine spells_token ('?' :: d :: behind.takeWhile isNameStart) ?_ (Nat.add_comm 1 _)
          (List.cons_ne_nil _ _)
          ((List.prefix_append_right_inj ['?', d]).mpr (List.takeWhile_prefix _))
        simp [Token.text]
      · exact spells_unknown
    refine spells_ite (fun h => ?_) fun _ => ?_
    · subst h
      split
      · exact htwo .implies rfl
      · exact hone .sameAs rfl
    refine spells_ite (fun h => ?_) fun _ => ?_
    · subst h
      split
      · exact htwo .doubleCaret rfl
      · exact spells_unknown
    refine spells_ite (fun h => hone .lbrace (h ▸ rfl)) fun _ => ?_
    refine spells_ite (fun h => hone .rbrace (h ▸ rfl)) fun _ => ?_
    refine spells_ite (fun h => hone .lbracket (h ▸ rfl)) fun _ => ?_
    refine spells_ite (fun h => hone .rbracket (h ▸ rfl)) fun _ => ?_
    refine spells_ite (fun h => hone .dot (h ▸ rfl)) fun _ => ?_
    refine spells_ite (fun h => hone .comma (h ▸ rfl)) fun _ => ?_
    exact spells_ite (fun h => hone .semicolon (h ▸ rfl)) fun _ => spells_unknown

/-! ### Places -/

/-- The characters behind the last line break. -/
def lastLine (cs : List Char) : List Char := cs.rtakeWhile (· ≠ '\n')

namespace Position

theorem advance_append (p : Position) (cs ds : List Char) :
    p.advance (cs ++ ds) = (p.advance cs).advance ds := List.foldl_append

theorem offset_advance (p : Position) (cs : List Char) :
    (p.advance cs).offset = p.offset + String.utf8Len cs := by
  induction cs generalizing p with
  | nil => rfl
  | cons c cs ih =>
    show ((p.after c).advance cs).offset = _
    rw [ih, String.utf8Len, Nat.add_comm (String.utf8Len cs), ← Nat.add_assoc]
    rfl

theorem line_advance (p : Position) (cs : List Char) :
    (p.advance cs).line = p.line + cs.count '\n' := by
  induction cs generalizing p with
  | nil => rfl
  | cons c cs ih =>
    show ((p.after c).advance cs).line = _
    rw [ih, after, List.count_cons]
    by_cases hc : c = '\n'
    · simp [hc]
      omega
    · simp [hc]

/-- Within a line, columns count bytes. -/
theorem column_advance_of_line (p : Position) {cs : List Char} (h : '\n' ∉ cs) :
    (p.advance cs).column = p.column + String.utf8Len cs := by
  induction cs generalizing p with
  | nil => rfl
  | cons c cs ih =>
    rw [List.mem_cons, not_or] at h
    show ((p.after c).advance cs).column = _
    rw [ih _ h.2, String.utf8Len]
    simp only [after, if_neg (Ne.symm h.1)]
    omega

theorem column_advance (cs : List Char) :
    (advance {} cs).column = 1 + String.utf8Len (lastLine cs) := by
  induction cs using List.reverseRecOn with
  | nil => rfl
  | append_singleton cs c ih =>
    rw [advance_append, lastLine, List.rtakeWhile_concat]
    show ((advance {} cs).after c).column = _
    by_cases hc : c = '\n'
    · simp [after, hc]
    · rw [lastLine] at ih
      simp only [after, if_neg hc, ih, decide_eq_true hc, if_pos, String.utf8Len_append,
        String.utf8Len]
      omega

/-- Line and column tell a place in a text. -/
theorem eq_of_line_column {text cs ds : List Char} (hcs : cs <+: text) (hds : ds <+: text)
    (hline : (advance {} cs).line = (advance {} ds).line)
    (hcolumn : (advance {} cs).column = (advance {} ds).column) : cs = ds := by
  wlog h : cs <+: ds generalizing cs ds with hwlog
  · have hother := (List.prefix_or_prefix_of_prefix hcs hds).resolve_left h
    exact (hwlog hds hcs hline.symm hcolumn.symm hother).symm
  obtain ⟨between, rfl⟩ := h
  rw [advance_append, line_advance _ between] at hline
  have hbetween : '\n' ∉ between := List.count_eq_zero.mp (by omega)
  rw [advance_append, column_advance_of_line _ hbetween] at hcolumn
  have hempty : between = [] := String.utf8Len_eq_zero.mp (by omega)
  rw [hempty, List.append_nil]

end Position

/-- The token is found in the text, at this place. -/
def Stands (p : Position) (text : List Char) (e : Token × Position) : Prop :=
  ∃ before after n, text = before ++ after ∧ e.2 = p.advance before ∧ scan after = .token e.1 n

theorem Stands.behind {p : Position} {piece text : List Char} {e : Token × Position}
    (h : Stands (p.advance piece) text e) : Stands p (piece ++ text) e := by
  obtain ⟨before, after, n, rfl, hplace, hscan⟩ := h
  exact ⟨piece ++ before, after, n, (List.append_assoc _ _ _).symm,
    hplace.trans (p.advance_append piece before).symm, hscan⟩

theorem Stands.offset_le {p : Position} {text : List Char} {e : Token × Position}
    (h : Stands p text e) : p.offset ≤ e.2.offset := by
  obtain ⟨before, _, _, _, hplace, _⟩ := h
  rw [hplace, Position.offset_advance]
  exact Nat.le_add_right _ _

/-- Tokens stand where they were found, one behind the other. -/
theorem tokens_stand {fuel : Nat} {p : Position} {text : List Char}
    {tokens : List (Token × Position)} (h : tokensOf (lexFrom fuel p text) = .ok tokens) :
    (∀ e ∈ tokens, Stands p text e) ∧ tokens.Pairwise fun d e => d.2.offset < e.2.offset := by
  induction fuel generalizing p text tokens with
  | zero =>
    cases h
    exact ⟨List.forall_mem_nil _, .nil⟩
  | succ fuel ih =>
    cases text with
    | nil =>
      cases h
      exact ⟨List.forall_mem_nil _, .nil⟩
    | cons c rest =>
      rw [lexFrom] at h
      rotate_left
      · simp
      have hsplit := List.take_append_drop (scan (c :: rest)).length (c :: rest)
      have hbehind {e : Token × Position} (he : Stands (p.advance
          ((c :: rest).take (scan (c :: rest)).length)) ((c :: rest).drop (scan (c :: rest)).length) e) :
          Stands p (c :: rest) e := hsplit ▸ he.behind
      cases hscan : scan (c :: rest) with
      | unknown n =>
        simp only [hscan, tokensOf] at h
        cases h
      | skipped n =>
        simp only [hscan] at h hbehind
        obtain ⟨hstand, hordered⟩ := ih h
        exact ⟨fun e he => hbehind (hstand e he), hordered⟩
      | token t n =>
        obtain ⟨hspelled, _, hpos⟩ := spells_scan _ _ _ hscan
        simp only [hscan, Found.length, tokensOf] at h hbehind
        cases hothers : tokensOf (lexFrom fuel (p.advance ((c :: rest).take n)) ((c :: rest).drop n)) with
        | error fault =>
          rw [hothers] at h
          cases h
        | ok others =>
          rw [hothers] at h
          cases h
          obtain ⟨hstand, hordered⟩ := ih hothers
          refine ⟨List.forall_mem_cons.mpr ⟨⟨[], _, n, rfl, rfl, hscan⟩, fun e he =>
            hbehind (hstand e he)⟩, List.pairwise_cons.mpr ⟨fun e he => ?_, hordered⟩⟩
          refine Nat.lt_of_lt_of_le ?_ (hstand e he).offset_le
          rw [Position.offset_advance]
          have hsome : (c :: rest).take n ≠ [] := by simp; omega
          have := mt String.utf8Len_eq_zero.mp hsome
          show p.offset < _
          omega

/-- No two tokens of a text have the same line and column. -/
theorem places_differ {text : List Char} {d e : Token × Position} (hd : Stands {} text d)
    (he : Stands {} text e) (hline : d.2.line = e.2.line) (hcolumn : d.2.column = e.2.column) :
    d.2 = e.2 := by
  obtain ⟨cs, after, _, rfl, hcs, _⟩ := hd
  obtain ⟨ds, after', _, htext, hds, _⟩ := he
  rw [hcs, hds] at hline hcolumn ⊢
  rw [Position.eq_of_line_column (List.prefix_append cs after) (htext ▸ List.prefix_append ds after')
    hline hcolumn]

end HornReasoner.N3
