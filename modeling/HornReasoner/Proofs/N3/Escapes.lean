import HornReasoner.N3.Document
import Mathlib.Data.List.Basic

/-! The escapes of strings.

A string is read escape by escape. A `\u` with a code of four digits is that character
(`unescape_code`). Otherwise four characters are taken along all the same: a plus sign and fewer
digits at the end pass for a code (`codeChar?_eq_some_iff`), and an escape among four characters that
are none is not read (`Uniform`). `decoded` is the reading where only four digits count and reading
goes on right behind the `u`; the two agree wherever reading comes to if and only if each `\u` there
is of the first kind, or its four characters are no code and stay as they are in any case. -/
namespace HornReasoner.N3

/-- The character of the four digits that the text starts with. -/
def code? : List Char → Option Char
  | a :: b :: c :: d :: _ => Text.charOfHex? [a, b, c, d]
  | _ => none

/-- The text that the body of a string stands for, if a `\u` without a code stays as it is and reading
goes on behind it. -/
def decoded : List Char → List Char
  | [] => []
  | '\\' :: 'u' :: a :: b :: c :: d :: rest =>
    match Text.charOfHex? [a, b, c, d] with
    | some e => e :: decoded rest
    | none => '\\' :: 'u' :: decoded (a :: b :: c :: d :: rest)
  | '\\' :: 'u' :: rest => '\\' :: 'u' :: decoded rest
  | '\\' :: 'n' :: rest => '\n' :: decoded rest
  | '\\' :: 't' :: rest => '\t' :: decoded rest
  | '\\' :: 'r' :: rest => '\r' :: decoded rest
  | '\\' :: c :: rest => c :: decoded rest
  | c :: rest => c :: decoded rest

/-- The character of an escape that has no code. -/
def escaped : Char → Char
  | 'n' => '\n'
  | 't' => '\t'
  | 'r' => '\r'
  | c => c

/-! ### One step of reading -/

theorem unescape_plain {c : Char} (hc : c ≠ '\\') (rest : List Char) :
    unescape (c :: rest) = c :: unescape rest := by
  rw [unescape] <;> simp [hc]

theorem decoded_plain {c : Char} (hc : c ≠ '\\') (rest : List Char) :
    decoded (c :: rest) = c :: decoded rest := by
  rw [decoded] <;> simp [hc]

theorem unescape_simple {c : Char} (hc : c ≠ 'u') (rest : List Char) :
    unescape ('\\' :: c :: rest) = escaped c :: unescape rest := by
  rw [escaped.eq_def]
  split <;> rw [unescape] <;> simp_all

theorem decoded_simple {c : Char} (hc : c ≠ 'u') (rest : List Char) :
    decoded ('\\' :: c :: rest) = escaped c :: decoded rest := by
  rw [escaped.eq_def]
  split <;> rw [decoded] <;> simp_all

theorem unescape_u (rest : List Char) :
    unescape ('\\' :: 'u' :: rest) = decodeCode (rest.take 4) ++ unescape (rest.drop 4) := by
  match rest with
  | [] | [_] | [_, _] | [_, _, _] => simp [unescape]
  | a :: b :: c :: d :: rest => rfl

theorem decoded_u (rest : List Char) :
    decoded ('\\' :: 'u' :: rest) = match code? rest with
      | some c => c :: decoded (rest.drop 4)
      | none => '\\' :: 'u' :: decoded rest := by
  match rest with
  | [] | [_] | [_, _] | [_, _, _] => rfl
  | a :: b :: c :: d :: rest => rfl

/-! ### Codes -/

theorem hexValue?_isSome_of_number {digits : List Char} {m n : Nat}
    (h : digits.foldlM (fun n c => (Text.hexValue? c).map (16 * n + ·)) m = some n) :
    ∀ c ∈ digits, (Text.hexValue? c).isSome := by
  induction digits generalizing m with
  | nil => exact List.forall_mem_nil _
  | cons d digits ih =>
    rw [List.foldlM_cons] at h
    obtain ⟨k, hd, hrest⟩ := Option.bind_eq_some_iff.mp h
    obtain ⟨v, hv, -⟩ := Option.map_eq_some_iff.mp hd
    exact List.forall_mem_cons.mpr ⟨Option.isSome_iff_exists.mpr ⟨v, hv⟩, ih hrest⟩

/-- A code is made of hexadecimal digits. -/
theorem hexValue?_isSome {digits : List Char} {c : Char} (h : Text.charOfHex? digits = some c) :
    ∀ d ∈ digits, (Text.hexValue? d).isSome := by
  cases digits with
  | nil => exact List.forall_mem_nil _
  | cons d digits =>
    obtain ⟨n, hn, -⟩ := Option.bind_eq_some_iff.mp h
    exact hexValue?_isSome_of_number hn

theorem charOfHex?_plus (digits : List Char) : Text.charOfHex? ('+' :: digits) = none :=
  Option.eq_none_iff_forall_ne_some.mpr fun _ h =>
    absurd (hexValue?_isSome h '+' List.mem_cons_self) (by decide)

theorem backslash_not_mem_of_codeChar? {code : List Char} {c : Char} (h : codeChar? code = some c) :
    '\\' ∉ code := by
  intro hmem
  rw [codeChar?.eq_def] at h
  split at h
  · exact absurd (hexValue?_isSome h '\\' (List.mem_of_ne_of_mem (by decide) hmem)) (by decide)
  · exact absurd (hexValue?_isSome h '\\' hmem) (by decide)

theorem code?_eq_some_iff {rest : List Char} {c : Char} :
    code? rest = some c ↔ 4 ≤ rest.length ∧ Text.charOfHex? (rest.take 4) = some c := by
  match rest with
  | [] | [_] | [_, _] | [_, _, _] => simp [code?]
  | a :: b :: c :: d :: rest => simp [code?]

/-- What passes for a code: four digits, fewer at the end of the string, or digits behind a plus
sign. -/
theorem codeChar?_eq_some_iff {rest : List Char} {c : Char} :
    codeChar? (rest.take 4) = some c ↔ code? rest = some c ∨
      (rest.length < 4 ∧ Text.charOfHex? rest = some c) ∨
      ∃ digits, rest.take 4 = '+' :: digits ∧ Text.charOfHex? digits = some c := by
  have hshort (hlength : rest.length < 4) : rest.take 4 = rest :=
    List.take_of_length_le (Nat.le_of_lt hlength)
  rw [code?_eq_some_iff]
  constructor
  · intro h
    rw [codeChar?.eq_def] at h
    split at h
    · next digits hplus => exact .inr (.inr ⟨digits, hplus, h⟩)
    · obtain hlength | hlength := Nat.lt_or_ge rest.length 4
      · exact .inr (.inl ⟨hlength, hshort hlength ▸ h⟩)
      · exact .inl ⟨hlength, h⟩
  · have hdigits (h : Text.charOfHex? (rest.take 4) = some c) : codeChar? (rest.take 4) = some c := by
      rw [codeChar?.eq_def]
      split
      · next digits hplus =>
        rw [hplus, charOfHex?_plus] at h
        cases h
      · exact h
    rintro (⟨-, h⟩ | ⟨hlength, h⟩ | ⟨digits, hplus, h⟩)
    · exact hdigits h
    · exact hdigits ((hshort hlength).symm ▸ h)
    · rw [hplus]
      exact h

/-- A code of four digits is read as one. -/
theorem unescape_code {rest : List Char} {c : Char} (h : code? rest = some c) :
    unescape ('\\' :: 'u' :: rest) = c :: unescape (rest.drop 4) := by
  rw [unescape_u, decodeCode, codeChar?_eq_some_iff.mpr (.inl h)]
  rfl

/-- Characters without a backslash stay as they are. -/
theorem unescape_take (n : Nat) {rest : List Char} (h : '\\' ∉ rest.take n) :
    unescape rest = rest.take n ++ unescape (rest.drop n) := by
  induction n generalizing rest with
  | zero => rfl
  | succ n ih =>
    cases rest with
    | nil => rfl
    | cons c rest =>
      rw [List.take_succ_cons, List.mem_cons, not_or] at h
      rw [unescape_plain (Ne.symm h.1), ih h.2]
      rfl

/-! ### Reading on -/

/-- Reading as `decoded` does comes to `s`. -/
inductive Reached (body : List Char) : List Char → Prop
  | start : Reached body body
  | plain {c : Char} {rest : List Char} (hc : c ≠ '\\') (h : Reached body (c :: rest)) :
    Reached body rest
  | simple {c : Char} {rest : List Char} (hc : c ≠ 'u') (h : Reached body ('\\' :: c :: rest)) :
    Reached body rest
  | code {c : Char} {rest : List Char} (hc : code? rest = some c)
    (h : Reached body ('\\' :: 'u' :: rest)) : Reached body (rest.drop 4)
  | bare {rest : List Char} (hc : code? rest = none) (h : Reached body ('\\' :: 'u' :: rest)) :
    Reached body rest

/-- Behind a `\u` there is a code of four digits, or what is taken along is no code and stays as it
is in any case. -/
def Uniform (rest : List Char) : Prop :=
  (∃ c, code? rest = some c) ∨
    codeChar? (rest.take 4) = none ∧ unescape rest = rest.take 4 ++ unescape (rest.drop 4)

/-- Without a backslash among the four characters, nothing is left to say of them. -/
theorem uniform_iff {rest : List Char} (h : '\\' ∉ rest.take 4) :
    Uniform rest ↔ (∃ c, code? rest = some c) ∨ codeChar? (rest.take 4) = none := by
  rw [Uniform, and_iff_left (unescape_take 4 h)]

/-- A `\u` without a code is kept exactly if its four characters are no code and stay as they are. -/
theorem unescape_bare_iff {rest : List Char} (h : code? rest = none) :
    unescape ('\\' :: 'u' :: rest) = '\\' :: 'u' :: unescape rest ↔ Uniform rest := by
  have hcode : ¬ ∃ c, code? rest = some c := by
    rw [h]
    nofun
  rw [Uniform, or_iff_right hcode, unescape_u, decodeCode]
  cases hc : codeChar? (rest.take 4) with
  | none => simp [eq_comm]
  | some c =>
    refine ⟨fun heq => ?_, fun heq => by cases heq.1⟩
    -- the four characters would stand there as they are, and once more
    have hlength := congrArg List.length heq
    rw [unescape_take 4 (backslash_not_mem_of_codeChar? hc)] at hlength
    simp only [List.length_append, List.length_cons, List.length_nil] at hlength
    omega

/-- Wherever reading comes to, it goes on as it should if each `\u` there is uniform. -/
theorem unescape_eq_decoded {body s : List Char} (hs : Reached body s)
    (h : ∀ rest, Reached body ('\\' :: 'u' :: rest) → Uniform rest) : unescape s = decoded s := by
  induction hlength : s.length using Nat.strongRecOn generalizing s with
  | ind n ih =>
    subst hlength
    cases s with
    | nil => rfl
    | cons c rest =>
      by_cases hc : c = '\\'
      · subst hc
        cases rest with
        | nil => rfl
        | cons d rest =>
          have hshort : rest.length < ('\\' :: d :: rest).length :=
            Nat.lt_succ_of_lt (Nat.lt_succ_self _)
          by_cases hd : d = 'u'
          · subst hd
            rw [decoded_u]
            cases hcode : code? rest with
            | some e =>
              have hdrop : (rest.drop 4).length ≤ rest.length := (List.drop_sublist 4 rest).length_le
              rw [unescape_code hcode, ih _ (Nat.lt_of_le_of_lt hdrop hshort) (.code hcode hs) rfl]
            | none =>
              rw [(unescape_bare_iff hcode).mpr (h rest hs), ih _ hshort (.bare hcode hs) rfl]
          · rw [unescape_simple hd, decoded_simple hd, ih _ hshort (.simple hd hs) rfl]
      · rw [unescape_plain hc, decoded_plain hc, ih _ (Nat.lt_succ_self _) (.plain hc hs) rfl]

/-- **Escapes with a code.** A code of four digits is always read as its character. Wherever reading
comes to, what is behind is read as it should if and only if each `\u` on the way is uniform; and a
`\u` is not if a plus sign with digits or fewer digits at the end pass for its code. -/
theorem unescape_uniform (body : List Char) :
    (∀ rest c, code? rest = some c →
      unescape ('\\' :: 'u' :: rest) = c :: unescape (rest.drop 4)) ∧
    ((∀ s, Reached body s → unescape s = decoded s) ↔
      ∀ rest, Reached body ('\\' :: 'u' :: rest) → Uniform rest) ∧
    (∀ rest, '\\' ∉ rest.take 4 →
      (Uniform rest ↔ (∃ c, code? rest = some c) ∨ codeChar? (rest.take 4) = none)) ∧
    ∀ rest c, codeChar? (rest.take 4) = some c ↔ code? rest = some c ∨
      (rest.length < 4 ∧ Text.charOfHex? rest = some c) ∨
      ∃ digits, rest.take 4 = '+' :: digits ∧ Text.charOfHex? digits = some c := by
  refine ⟨fun _ _ => unescape_code, ⟨fun h rest hs => ?_, fun h s hs => unescape_eq_decoded hs h⟩,
    fun _ => uniform_iff, fun _ _ => codeChar?_eq_some_iff⟩
  cases hcode : code? rest with
  | some c => exact .inl ⟨c, hcode⟩
  | none =>
    have hu := h _ hs
    rw [decoded_u, hcode, ← h _ (.bare hcode hs)] at hu
    exact (unescape_bare_iff hcode).mp hu

/-- A code, and another one behind it. -/
theorem unescape_uniform_of_code :
    code? ("0041\\u00e9".toList) = some 'A' ∧
    unescape ('\\' :: 'u' :: "0041\\u00e9".toList) =
      'A' :: unescape ("0041\\u00e9".toList.drop 4) := by
  have hcode : code? ("0041\\u00e9".toList) = some 'A' := by decide +kernel
  exact ⟨hcode, (unescape_uniform ('\\' :: 'u' :: "0041\\u00e9".toList)).1 _ _ hcode⟩

/-- A plus sign and fewer digits pass for codes, and behind a `\u` a line break is not read. -/
theorem codes_misread :
    (stringBody "\\u+041\" .".toList = ("\\u+041".toList, true) ∧
      unescape "\\u+041".toList = ['A'] ∧ decoded "\\u+041".toList = "\\u+041".toList) ∧
    (unescape "\\u41".toList = ['A'] ∧ decoded "\\u41".toList = "\\u41".toList) ∧
    (unescape "\\uzz\\n1".toList = "\\uzz\\n1".toList ∧
      decoded "\\uzz\\n1".toList = "\\uzz\n1".toList) ∧
    (parse "<a> <p> \"\\u+041\" .").toOption.map (·.facts) =
      some [⟨.iri "a", .iri "p", .literal (.plain "A")⟩] := by
  decide +kernel

end HornReasoner.N3
