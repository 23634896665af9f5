import HornReasoner.Json.Reader
import Mathlib.Tactic.SplitIfs

/-! Written values are read back.

A value that is written over several lines at any depth is read from whatever text follows it
(`Reads`), with two calls for each of its characters. Strings come first, with every character in
them, and arrays and objects from their parts. -/
namespace HornReasoner.Json

/-! ### Strings -/

theorem hexNumber?_control : ∀ n < 32,
    Text.hexNumber? ['0', '0', hexDigit (n / 16), hexDigit (n % 16)] = some n := by decide

theorem pieces?_escapeChar (c : Char) (rest : List Char) :
    pieces? (escapeChar c ++ rest) = (pieces? rest).map fun e => (.char c :: e.1, e.2) := by
  unfold escapeChar
  split_ifs with hquote hback hline hreturn htab hbell hfeed hcontrol
  · subst hquote
    rfl
  · subst hback
    rfl
  · subst hline
    rfl
  · subst hreturn
    rfl
  · subst htab
    rfl
  · subst hbell
    rfl
  · subst hfeed
    rfl
  · have hpiece : Piece.ofNat c.toNat = .char c := by
      have hhigh : isHighSurrogate c.toNat = false := by simp [isHighSurrogate]; omega
      have hlow : isLowSurrogate c.toNat = false := by simp [isLowSurrogate]; omega
      rw [Piece.ofNat, hhigh, hlow]
      exact congrArg Piece.char (Char.ofNat_toNat c)
    show pieces? ('\\' :: 'u' :: '0' :: '0' :: hexDigit (c.toNat / 16) :: hexDigit (c.toNat % 16) ::
      rest) = _
    rw [pieces?, hexNumber?_control c.toNat hcontrol]
    simp only [hpiece]
  · rw [List.singleton_append, pieces?]
    · rw [if_neg hcontrol]
    all_goals
      intros
      first | exact hquote ‹_› | exact hback ‹_›

theorem pieces?_text (text rest : List Char) :
    pieces? (text.flatMap escapeChar ++ '"' :: rest) = some (text.map .char, rest) := by
  induction text with
  | nil => rfl
  | cons c text ih =>
    rw [List.flatMap_cons, List.append_assoc, pieces?_escapeChar, ih]
    rfl

theorem joinHalves?_text (text : List Char) : joinHalves? (text.map .char) = some text := by
  induction text with
  | nil => rfl
  | cons c text ih =>
    rw [List.map_cons, joinHalves?, ih]
    rfl

theorem toList_quote (s : String) :
    (quote s).toList = '"' :: s.toList.flatMap escapeChar ++ ['"'] := by
  simp [quote, String.toList_append]

/-! ### Blanks -/

theorem toList_newline (depth : Nat) :
    (newline depth).toList = '\n' :: List.replicate (2 * depth) ' ' := by
  simp [newline, String.toList_append]

theorem skipBlanks_of_not {c : Char} (h : isBlank c = false) (rest : List Char) :
    skipBlanks (c :: rest) = c :: rest :=
  List.dropWhile_cons_of_neg (by rw [h]; decide)

/-- The start of a line is skipped. -/
theorem skipBlanks_newline (depth : Nat) {c : Char} (h : isBlank c = false) (rest : List Char) :
    skipBlanks ((newline depth).toList ++ c :: rest) = c :: rest := by
  rw [toList_newline, List.cons_append, skipBlanks, List.dropWhile_cons_of_pos rfl,
    List.dropWhile_append_of_pos (fun d hd => by rw [List.eq_of_mem_replicate hd]; rfl)]
  exact skipBlanks_of_not h rest

/-! ### One step of a reader -/

section Steps
variable {fuel : Nat} {s s' rest : List Char} {c : Char} {j : Json}

theorem value?_array (h : skipBlanks s = c :: s') (hc : c ≠ ']') :
    value? (fuel + 1) ('[' :: s) = (items? fuel (skipBlanks s)).map fun e => (.array e.1, e.2) := by
  rw [value?, if_neg (by decide), if_pos rfl, h]
  split
  · next heq =>
    cases heq
    exact absurd rfl hc
  · rfl

theorem value?_object (h : skipBlanks s = c :: s') (hc : c ≠ '\x7d') :
    value? (fuel + 1) ('\x7b' :: s) =
      (fields? fuel (skipBlanks s)).map fun e => (.object e.1, e.2) := by
  rw [value?, if_neg (by decide), if_neg (by decide), if_pos rfl, h]
  split
  · next heq =>
    cases heq
    exact absurd rfl hc
  · rfl

theorem items?_last (hvalue : value? fuel s = some (j, s')) (h : skipBlanks s' = ']' :: rest) :
    items? (fuel + 1) s = some ([j], rest) := by
  rw [items?, hvalue]
  simp only [Option.bind_eq_bind, Option.bind_some, h]

theorem items?_more (hvalue : value? fuel s = some (j, s')) (h : skipBlanks s' = ',' :: rest) :
    items? (fuel + 1) s = (items? fuel (skipBlanks rest)).map fun e => (j :: e.1, e.2) := by
  rw [items?, hvalue]
  simp only [Option.bind_eq_bind, Option.bind_some, h]

theorem fields?_last (name : String) (hskip : skipBlanks (' ' :: s) = s)
    (hvalue : value? fuel s = some (j, s')) (h : skipBlanks s' = '\x7d' :: rest) :
    fields? (fuel + 1) ((quote name).toList ++ ':' :: ' ' :: s) = some ([(name, j)], rest) := by
  rw [toList_quote, List.append_assoc, List.cons_append, List.singleton_append, fields?]
  simp only [pieces?_text, Option.bind_eq_bind, Option.bind_some, joinHalves?_text,
    skipBlanks_of_not (c := ':') rfl, hskip, hvalue, String.ofList_toList, h]

theorem fields?_more (name : String) (hskip : skipBlanks (' ' :: s) = s)
    (hvalue : value? fuel s = some (j, s')) (h : skipBlanks s' = ',' :: rest) :
    fields? (fuel + 1) ((quote name).toList ++ ':' :: ' ' :: s) =
      (fields? fuel (skipBlanks rest)).map fun e => ((name, j) :: e.1, e.2) := by
  rw [toList_quote, List.append_assoc, List.cons_append, List.singleton_append, fields?]
  simp only [pieces?_text, Option.bind_eq_bind, Option.bind_some, joinHalves?_text,
    skipBlanks_of_not (c := ':') rfl, hskip, hvalue, String.ofList_toList, h]

end Steps

/-! ### Values -/

/-- Written at any depth, the value is read from any text behind it. It starts neither with a blank
nor like the end of an array. -/
structure Reads (j : Json) : Prop where
  starts : ∀ depth, ∃ c rest, (prettyAt depth j).toList = c :: rest ∧ isBlank c = false ∧ c ≠ ']'
  value : ∀ depth fuel rest, 2 * (prettyAt depth j).toList.length ≤ fuel →
    value? fuel ((prettyAt depth j).toList ++ rest) = some (j, rest)

namespace Reads

theorem null : Reads null where
  starts depth := ⟨'n', ['u', 'l', 'l'], by rw [prettyAt]; rfl, rfl, by decide⟩
  value depth fuel rest h := by
    have htext : (prettyAt depth Json.null).toList = ['n', 'u', 'l', 'l'] := by rw [prettyAt]; rfl
    rw [htext] at h ⊢
    obtain ⟨fuel, rfl⟩ : ∃ f, fuel = f + 1 := ⟨fuel - 1, by simp at h; omega⟩
    rw [List.cons_append, value?]
    rfl

theorem string (s : String) : Reads (.string s) where
  starts depth := ⟨'"', _, by rw [prettyAt, toList_quote]; rfl, rfl, by decide⟩
  value depth fuel rest h := by
    have htext : (prettyAt depth (.string s)).toList = '"' :: s.toList.flatMap escapeChar ++ ['"'] := by
      rw [prettyAt, toList_quote]
    rw [htext] at h ⊢
    obtain ⟨fuel, rfl⟩ : ∃ f, fuel = f + 1 := ⟨fuel - 1, by simp at h; omega⟩
    rw [List.append_assoc, List.cons_append, value?, if_pos rfl]
    show (pieces? (s.toList.flatMap escapeChar ++ '"' :: rest)).map _ = _
    rw [pieces?_text, Option.map_some, joinHalves?_text]
    show some (Json.string (String.ofList s.toList), rest) = _
    rw [String.ofList_toList]

/-- Blanks in front of a value are skipped. -/
theorem skipBlanks_line {j : Json} (h : Reads j) (depth close : Nat) (behind : List Char) :
    skipBlanks ((newline close).toList ++ ((prettyAt depth j).toList ++ behind)) =
      (prettyAt depth j).toList ++ behind := by
  obtain ⟨c, text, htext, hc, _⟩ := h.starts depth
  rw [htext, List.cons_append]
  exact skipBlanks_newline close hc _

/-! ### Arrays -/

theorem toList_prettyItems_singleton (depth : Nat) (item : Json) :
    (prettyItems depth [item]).toList = (newline depth).toList ++ (prettyAt depth item).toList := by
  rw [prettyItems, String.toList_append]

theorem toList_prettyItems_cons (depth : Nat) (item next : Json) (items : List Json) :
    (prettyItems depth (item :: next :: items)).toList = (newline depth).toList ++
      ((prettyAt depth item).toList ++ ',' :: (prettyItems depth (next :: items)).toList) := by
  rw [prettyItems]
  · simp [String.toList_append]
  · simp

/-- What is read of items starts with the first of them. -/
theorem skipBlanks_prettyItems (depth : Nat) {item : Json} (items : List Json) (rest : List Char)
    (h : Reads item) : ∃ c s,
    skipBlanks ((prettyItems depth (item :: items)).toList ++ rest) = c :: s ∧ c ≠ ']' := by
  obtain ⟨c, text, htext, _, hclose⟩ := h.starts depth
  cases items with
  | nil =>
    rw [toList_prettyItems_singleton, List.append_assoc, h.skipBlanks_line, htext]
    exact ⟨c, _, rfl, hclose⟩
  | cons next items =>
    rw [toList_prettyItems_cons, List.append_assoc, List.append_assoc, h.skipBlanks_line, htext]
    exact ⟨c, _, rfl, hclose⟩

theorem items {items : List Json} (h : ∀ item ∈ items, Reads item) (hne : items ≠ [])
    (depth close fuel : Nat) (rest : List Char)
    (hfuel : 2 * (prettyItems depth items).toList.length + 1 ≤ fuel) :
    items? fuel (skipBlanks ((prettyItems depth items).toList ++ ((newline close).toList ++
      ']' :: rest))) = some (items, rest) := by
  induction items generalizing fuel with
  | nil => exact absurd rfl hne
  | cons item items ih =>
    obtain ⟨hitem, hitems⟩ := List.forall_mem_cons.mp h
    obtain ⟨fuel, rfl⟩ : ∃ f, fuel = f + 1 := ⟨fuel - 1, by omega⟩
    cases items with
    | nil =>
      rw [toList_prettyItems_singleton, List.length_append] at hfuel
      rw [toList_prettyItems_singleton, List.append_assoc, hitem.skipBlanks_line]
      exact items?_last (hitem.value depth fuel _ (by omega)) (skipBlanks_newline close rfl rest)
    | cons next items =>
      rw [toList_prettyItems_cons, List.length_append, List.length_append, List.length_cons] at hfuel
      rw [toList_prettyItems_cons, List.append_assoc, List.append_assoc, hitem.skipBlanks_line,
        List.cons_append,
        items?_more (hitem.value depth fuel _ (by omega)) (skipBlanks_of_not (c := ',') rfl _),
        ih hitems (List.cons_ne_nil _ _) fuel (by omega)]
      rfl

theorem array {items : List Json} (h : ∀ item ∈ items, Reads item) : Reads (.array items) := by
  cases items with
  | nil =>
    have htext (depth : Nat) : (prettyAt depth (.array [])).toList = ['[', ']'] := by
      rw [prettyAt]
      rfl
    refine ⟨fun depth => ⟨'[', _, htext depth, rfl, by decide⟩, fun depth fuel rest hfuel => ?_⟩
    rw [htext] at hfuel ⊢
    obtain ⟨fuel, rfl⟩ : ∃ f, fuel = f + 1 := ⟨fuel - 1, by simp at hfuel; omega⟩
    rw [List.cons_append, value?]
    rfl
  | cons item items =>
    have htext (depth : Nat) : (prettyAt depth (.array (item :: items))).toList =
        '[' :: ((prettyItems (depth + 1) (item :: items)).toList ++
          ((newline depth).toList ++ [']'])) := by
      rw [prettyAt]
      · simp [String.toList_append]
      · simp
    refine ⟨fun depth => ⟨'[', _, htext depth, rfl, by decide⟩, fun depth fuel rest hfuel => ?_⟩
    rw [htext, List.length_cons, List.length_append, List.length_append, List.length_singleton] at hfuel
    obtain ⟨fuel, rfl⟩ : ∃ f, fuel = f + 1 := ⟨fuel - 1, by omega⟩
    obtain ⟨c, s, hfirst, hclose⟩ := skipBlanks_prettyItems (depth + 1) items
      ((newline depth).toList ++ ']' :: rest) (h item List.mem_cons_self)
    have hread := Reads.items h (List.cons_ne_nil item items) (depth + 1) depth fuel rest (by omega)
    rw [htext, List.cons_append, List.append_assoc, List.append_assoc, List.singleton_append,
      value?_array hfirst hclose, hread]
    rfl

/-! ### Objects -/

theorem toList_prettyFields_singleton (depth : Nat) (name : String) (j : Json) :
    (prettyFields depth [(name, j)]).toList = (newline depth).toList ++ ((quote name).toList ++
      ':' :: ' ' :: (prettyAt depth j).toList) := by
  rw [prettyFields]
  simp [String.toList_append]

theorem toList_prettyFields_cons (depth : Nat) (name : String) (j : Json) (next : String × Json)
    (fields : List (String × Json)) :
    (prettyFields depth ((name, j) :: next :: fields)).toList = (newline depth).toList ++
      ((quote name).toList ++ ':' :: ' ' :: ((prettyAt depth j).toList ++
        ',' :: (prettyFields depth (next :: fields)).toList)) := by
  rw [prettyFields]
  · simp [String.toList_append]
  · simp

/-- The blank behind a colon is skipped. -/
theorem skipBlanks_space {j : Json} (h : Reads j) (depth : Nat) (behind : List Char) :
    skipBlanks (' ' :: ((prettyAt depth j).toList ++ behind)) =
      (prettyAt depth j).toList ++ behind := by
  obtain ⟨c, text, htext, hc, _⟩ := h.starts depth
  rw [htext, List.cons_append, skipBlanks, List.dropWhile_cons_of_pos rfl]
  exact skipBlanks_of_not hc _

/-- A line with a name. -/
theorem skipBlanks_name (depth : Nat) (name : String) (behind : List Char) :
    skipBlanks ((newline depth).toList ++ ((quote name).toList ++ behind)) =
      (quote name).toList ++ behind := by
  rw [toList_quote, List.cons_append, List.cons_append]
  exact skipBlanks_newline depth rfl _

/-- What is read of fields starts with a quote. -/
theorem skipBlanks_prettyFields (depth : Nat) (field : String × Json)
    (fields : List (String × Json)) (rest : List Char) :
    ∃ s, skipBlanks ((prettyFields depth (field :: fields)).toList ++ rest) = '"' :: s := by
  obtain ⟨name, j⟩ := field
  cases fields with
  | nil =>
    rw [toList_prettyFields_singleton, List.append_assoc, List.append_assoc, skipBlanks_name,
      toList_quote]
    exact ⟨_, rfl⟩
  | cons next fields =>
    rw [toList_prettyFields_cons, List.append_assoc, List.append_assoc, skipBlanks_name,
      toList_quote]
    exact ⟨_, rfl⟩

theorem fields {fields : List (String × Json)} (h : ∀ field ∈ fields, Reads field.2)
    (hne : fields ≠ []) (depth close fuel : Nat) (rest : List Char)
    (hfuel : 2 * (prettyFields depth fields).toList.length + 1 ≤ fuel) :
    fields? fuel (skipBlanks ((prettyFields depth fields).toList ++ ((newline close).toList ++
      '\x7d' :: rest))) = some (fields, rest) := by
  induction fields generalizing fuel with
  | nil => exact absurd rfl hne
  | cons field fields ih =>
    obtain ⟨name, j⟩ := field
    obtain ⟨hvalue, hfields⟩ := List.forall_mem_cons.mp h
    replace hvalue : Reads j := hvalue
    obtain ⟨fuel, rfl⟩ : ∃ f, fuel = f + 1 := ⟨fuel - 1, by omega⟩
    cases fields with
    | nil =>
      rw [toList_prettyFields_singleton] at hfuel ⊢
      simp only [List.length_append, List.length_cons] at hfuel
      rw [List.append_assoc, List.append_assoc, skipBlanks_name, List.cons_append, List.cons_append]
      exact fields?_last name (hvalue.skipBlanks_space depth _)
        (hvalue.value depth fuel _ (by omega)) (skipBlanks_newline close rfl rest)
    | cons next fields =>
      rw [toList_prettyFields_cons] at hfuel ⊢
      simp only [List.length_append, List.length_cons] at hfuel
      rw [List.append_assoc, List.append_assoc, skipBlanks_name, List.cons_append, List.cons_append,
        List.append_assoc, List.cons_append,
        fields?_more name (hvalue.skipBlanks_space depth _) (hvalue.value depth fuel _ (by omega))
          (skipBlanks_of_not (c := ',') rfl _),
        ih hfields (List.cons_ne_nil _ _) fuel (by omega)]
      rfl

theorem object {fields : List (String × Json)} (h : ∀ field ∈ fields, Reads field.2) :
    Reads (.object fields) := by
  cases fields with
  | nil =>
    have htext (depth : Nat) : (prettyAt depth (.object [])).toList = ['\x7b', '\x7d'] := by
      rw [prettyAt]
      rfl
    refine ⟨fun depth => ⟨'\x7b', _, htext depth, rfl, by decide⟩, fun depth fuel rest hfuel => ?_⟩
    rw [htext] at hfuel ⊢
    obtain ⟨fuel, rfl⟩ : ∃ f, fuel = f + 1 := ⟨fuel - 1, by simp at hfuel; omega⟩
    rw [List.cons_append, value?]
    rfl
  | cons field fields =>
    have htext (depth : Nat) : (prettyAt depth (.object (field :: fields))).toList =
        '\x7b' :: ((prettyFields (depth + 1) (field :: fields)).toList ++
          ((newline depth).toList ++ ['\x7d'])) := by
      rw [prettyAt]
      · simp [String.toList_append]
      · simp
    refine ⟨fun depth => ⟨'\x7b', _, htext depth, rfl, by decide⟩, fun depth fuel rest hfuel => ?_⟩
    rw [htext, List.length_cons, List.length_append, List.length_append, List.length_singleton] at hfuel
    obtain ⟨fuel, rfl⟩ : ∃ f, fuel = f + 1 := ⟨fuel - 1, by omega⟩
    obtain ⟨s, hfirst⟩ := skipBlanks_prettyFields (depth + 1) field fields
      ((newline depth).toList ++ '\x7d' :: rest)
    have hread := Reads.fields h (List.cons_ne_nil field fields) (depth + 1) depth fuel rest (by omega)
    rw [htext, List.cons_append, List.append_assoc, List.append_assoc, List.singleton_append,
      value?_object hfirst (by decide), hread]
    rfl

/-! ### Texts -/

theorem list {α : Type} {write : α → Json} {as : List α} (h : ∀ a ∈ as, Reads (write a)) :
    Reads (.list write as) := by
  refine array fun item hitem => ?_
  obtain ⟨a, ha, rfl⟩ := List.mem_map.mp hitem
  exact h a ha

theorem option {α : Type} {write : α → Json} (h : ∀ a, Reads (write a)) (a : Option α) :
    Reads (.option write a) := by
  cases a with
  | none => exact null
  | some a => exact h a

/-- A value is the one that its text writes. -/
theorem parse?_pretty {j : Json} (h : Reads j) : parse? j.pretty = some j := by
  obtain ⟨c, text, htext, hc, _⟩ := h.starts 0
  have hskip : skipBlanks j.pretty.toList = j.pretty.toList := by
    rw [pretty, htext]
    exact skipBlanks_of_not hc text
  have hvalue := h.value 0 (2 * j.pretty.toList.length + 2) [] (by rw [pretty]; omega)
  rw [List.append_nil] at hvalue
  rw [parse?]
  simp only [hskip]
  rw [show value? (2 * j.pretty.toList.length + 2) j.pretty.toList = some (j, []) from hvalue]
  rfl

end Reads

end HornReasoner.Json
