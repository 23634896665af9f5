import HornReasoner.Order.Buckets
import HornReasoner.Order.Sorted
import HornReasoner.Order.SortedMap
import Mathlib.Data.List.Sort

/-! What a map answers.

A sorted map is read through `get?`: each operation is characterised by what `get?`
says after it, and two maps that answer alike are equal. Likewise two sorted lists with the
same elements are equal. -/
namespace HornReasoner

/-- Lists that ascend in a key are equal if they have the same elements. -/
theorem eq_of_ascending {κ β : Type} [Ord κ] [Std.TransOrd κ] [Std.LawfulEqOrd κ] (key : β → κ)
    {as bs : List β} (ha : as.Pairwise fun a b => compare (key a) (key b) = .lt)
    (hb : bs.Pairwise fun a b => compare (key a) (key b) = .lt) (h : ∀ a, a ∈ as ↔ a ∈ bs) :
    as = bs := by
  have : Std.Irrefl fun a b : β => compare (key a) (key b) = .lt :=
    ⟨fun a ha => by
      have hself : compare (key a) (key a) = .eq := Std.ReflCmp.compare_self
      rw [hself] at ha
      cases ha⟩
  have : Std.Antisymm fun a b : β => compare (key a) (key b) = .lt :=
    ⟨fun a b hab hba => by
      rw [Std.OrientedCmp.gt_of_lt hab] at hba
      cases hba⟩
  exact List.Pairwise.eq_of_mem_iff ha hb fun {a} => h a

namespace Sorted

variable {α : Type} [Ord α] [Std.TransOrd α] [Std.LawfulEqOrd α]

theorem ascending_insert (a : α) {as : List α} (h : as.Pairwise fun a b => compare a b = .lt) :
    (insert a as).Pairwise fun a b => compare a b = .lt := by
  induction as with
  | nil => simp [insert]
  | cons b rest ih =>
    obtain ⟨hb, hrest⟩ := List.pairwise_cons.mp h
    simp only [insert]
    split
    · rename_i hlt
      refine List.pairwise_cons.mpr ⟨fun x hx => ?_, h⟩
      rcases List.mem_cons.mp hx with rfl | hx
      · exact hlt
      · exact Std.TransCmp.lt_trans hlt (hb x hx)
    · exact h
    · rename_i hgt
      refine List.pairwise_cons.mpr ⟨fun x hx => ?_, ih hrest⟩
      rcases (mem_insert a x rest).mp hx with rfl | hx
      · exact Std.OrientedCmp.lt_of_gt hgt
      · exact hb x hx

theorem ascending_ofList (as : List α) : (ofList as).Pairwise fun a b => compare a b = .lt := by
  induction as with
  | nil => exact .nil
  | cons a rest ih => exact ascending_insert a ih

/-- The sorted form depends on the elements only. -/
theorem ofList_congr {as bs : List α} (h : ∀ a, a ∈ as ↔ a ∈ bs) : ofList as = ofList bs := by
  refine eq_of_ascending id (ascending_ofList as) (ascending_ofList bs) fun a => ?_
  rw [mem_ofList, mem_ofList, h]

theorem filter_ofList (p : α → Bool) (as : List α) : (ofList as).filter p = ofList (as.filter p) := by
  refine eq_of_ascending id ((ascending_ofList as).filter p) (ascending_ofList _) fun a => ?_
  rw [List.mem_filter, mem_ofList, mem_ofList, List.mem_filter]

end Sorted

namespace SortedMap

variable {κ α : Type} [Ord κ]

theorem lookup_eq_none_of_lt {k : κ} {es : List (κ × α)}
    (h : ∀ e ∈ es, compare k e.1 = .lt) : lookup k es = none := by
  induction es with
  | nil => rfl
  | cons e rest ih =>
    obtain ⟨j, b⟩ := e
    have hj : compare k j = .lt := h _ (List.mem_cons_self ..)
    rw [lookup, hj, if_neg (by decide)]
    exact ih fun e he => h e (List.mem_cons_of_mem _ he)

theorem get?_empty (k : κ) : (∅ : SortedMap κ α).get? k = none := rfl

theorem contains_iff (m : SortedMap κ α) {k : κ} :
    m.contains k = true ↔ ∃ a, m.get? k = some a := Option.isSome_iff_exists

variable [Std.TransOrd κ] [Std.LawfulEqOrd κ]

/-- The value at `k` afterwards, given what was there. -/
def merged (merge : α → α → α) (a : α) : Option α → α
  | some b => merge b a
  | none => a

theorem lookup_put (merge : α → α → α) (k : κ) (a : α) (es : List (κ × α))
    (h : es.Pairwise fun a b => compare a.1 b.1 = .lt) (j : κ) :
    lookup j (put merge k a es) =
      if compare j k = .eq then some (merged merge a (lookup k es)) else lookup j es := by
  induction es with
  | nil => rfl
  | cons e rest ih =>
    obtain ⟨i, b⟩ := e
    obtain ⟨hi, hrest⟩ := List.pairwise_cons.mp h
    cases hki : compare k i with
    | lt =>
      have hnone : lookup k rest = none :=
        lookup_eq_none_of_lt fun e he => Std.TransCmp.lt_trans hki (hi e he)
      simp only [put, hki, lookup, hnone]
      rfl
    | eq =>
      have hk : k = i := Std.LawfulEqOrd.eq_of_compare hki
      subst hk
      simp only [put, hki, lookup]
      split <;> rfl
    | gt =>
      simp only [put, hki, lookup, ih hrest]
      by_cases hji : compare j i = .eq
      · have hj : j = i := Std.LawfulEqOrd.eq_of_compare hji
        subst hj
        have hjk : compare j k = .lt := Std.OrientedCmp.lt_of_gt hki
        simp [hjk]
      · simp [hji]

theorem get?_insert (m : SortedMap κ α) (k : κ) (a : α) (j : κ) :
    (m.insert k a).get? j = if compare j k = .eq then some a else m.get? j := by
  show lookup j (put _ k a m.toList) = _
  rw [lookup_put _ _ _ _ m.sorted]
  cases lookup k m.toList <;> rfl

theorem get?_insertIfNew (m : SortedMap κ α) (k : κ) (a : α) (j : κ) :
    (m.insertIfNew k a).get? j = if compare j k = .eq then (m.get? k).or (some a) else m.get? j := by
  show lookup j (put _ k a m.toList) = _
  rw [lookup_put _ _ _ _ m.sorted]
  unfold get?
  cases lookup k m.toList <;> rfl

theorem get?_insertAllIfNew (m : SortedMap κ α) (es : List (κ × α)) (j : κ) :
    (m.insertAllIfNew es).get? j = (m.get? j).or (lookup j es) := by
  unfold insertAllIfNew
  induction es generalizing m with
  | nil => simp [lookup]
  | cons e rest ih =>
    obtain ⟨k, a⟩ := e
    rw [List.foldl_cons, ih, get?_insertIfNew, lookup]
    split
    · rename_i h
      rw [Std.LawfulEqOrd.eq_of_compare h]
      cases m.get? k <;> rfl
    · rfl

theorem mem_of_get?_insertAll {m : SortedMap κ α} {es : List (κ × α)} {k : κ} {a : α}
    (h : (m.insertAll es).get? k = some a) : m.get? k = some a ∨ (k, a) ∈ es := by
  unfold insertAll at h
  induction es generalizing m with
  | nil => exact .inl h
  | cons e rest ih =>
    rcases ih h with h | hrest
    · rw [get?_insert] at h
      split at h
      · rename_i hkey
        cases h
        cases Std.LawfulEqOrd.eq_of_compare hkey
        exact .inr (List.mem_cons_self ..)
      · exact .inl h
    · exact .inr (List.mem_cons_of_mem _ hrest)

theorem mem_of_get?_ofList {es : List (κ × α)} {k : κ} {a : α} (h : (ofList es).get? k = some a) :
    (k, a) ∈ es :=
  (mem_of_get?_insertAll h).resolve_left fun hnone => by cases hnone

theorem get?_insertAll (m : SortedMap κ α) {es : List (κ × α)}
    (h : es.Pairwise fun a b => compare a.1 b.1 = .lt) (j : κ) :
    (m.insertAll es).get? j = (lookup j es).or (m.get? j) := by
  unfold insertAll
  induction es generalizing m with
  | nil => rfl
  | cons e rest ih =>
    obtain ⟨k, a⟩ := e
    obtain ⟨hk, hrest⟩ := List.pairwise_cons.mp h
    rw [List.foldl_cons, ih _ hrest, get?_insert, lookup]
    by_cases hkey : compare j k = .eq
    · cases Std.LawfulEqOrd.eq_of_compare hkey
      rw [if_pos hkey, if_pos hkey, lookup_eq_none_of_lt hk]
      rfl
    · rw [if_neg hkey, if_neg hkey]

omit [Std.TransOrd κ] in
theorem lookup_isSome_iff {es : List (κ × α)} {k : κ} :
    (lookup k es).isSome ↔ k ∈ es.map Prod.fst := by
  induction es with
  | nil => simp [lookup]
  | cons e rest ih =>
    obtain ⟨j, a⟩ := e
    rw [lookup, List.map_cons, List.mem_cons]
    by_cases hkj : compare k j = .eq
    · simp [Std.LawfulEqOrd.eq_of_compare hkj]
    · have hne : k ≠ j := fun hk => hkj (by rw [hk]; exact Std.ReflCmp.compare_self)
      simp [hkj, hne, ih]

omit [Std.TransOrd κ] in
theorem mem_of_lookup {es : List (κ × α)} {k : κ} {a : α} (h : lookup k es = some a) :
    (k, a) ∈ es := by
  induction es with
  | nil => cases h
  | cons e rest ih =>
    obtain ⟨j, b⟩ := e
    rw [lookup] at h
    split at h
    · rename_i hkj
      cases h
      rw [Std.LawfulEqOrd.eq_of_compare hkj]
      exact List.mem_cons_self ..
    · exact List.mem_cons_of_mem _ (ih h)

omit [Std.TransOrd κ] in
/-- With distinct keys every entry is found. -/
theorem lookup_of_mem {es : List (κ × α)} (h : (es.map Prod.fst).Nodup) {k : κ} {a : α}
    (he : (k, a) ∈ es) : lookup k es = some a := by
  have hkey : k ∈ es.map Prod.fst := List.mem_map.mpr ⟨(k, a), he, rfl⟩
  obtain ⟨b, hb⟩ := Option.isSome_iff_exists.mp (lookup_isSome_iff.mpr hkey)
  cases List.inj_on_of_nodup_map h (mem_of_lookup hb) he rfl
  exact hb

omit [Std.TransOrd κ] in
/-- Entries with the same keys and translated values. -/
theorem lookup_eq_map {es es' : List (κ × α)} (hkeys : es'.map Prod.fst = es.map Prod.fst)
    {f : α → α} (h : ∀ k a a', lookup k es = some a → lookup k es' = some a' → a' = f a) (k : κ) :
    lookup k es' = (lookup k es).map f := by
  have hsame : (lookup k es').isSome ↔ (lookup k es).isSome := by
    rw [lookup_isSome_iff, hkeys, lookup_isSome_iff]
  cases ha : lookup k es with
  | none =>
    rw [ha] at hsame
    exact Option.not_isSome_iff_eq_none.mp fun hsome => Bool.false_ne_true (hsame.mp hsome)
  | some a =>
    rw [ha] at hsame
    obtain ⟨a', ha'⟩ := Option.isSome_iff_exists.mp (hsame.mpr rfl)
    rw [ha', h k a a' ha ha']
    rfl

theorem contains_insertAllIfNew (m : SortedMap κ α) (es : List (κ × α)) (k : κ) :
    (m.insertAllIfNew es).contains k = true ↔ m.contains k = true ∨ k ∈ es.map Prod.fst := by
  rw [contains_iff, contains_iff, get?_insertAllIfNew, ← lookup_isSome_iff,
    ← Option.isSome_iff_exists, ← Option.isSome_iff_exists, Option.isSome_or, Bool.or_eq_true]

omit [Std.TransOrd κ] in
theorem lookup_eq_some_iff {es : List (κ × α)}
    (h : es.Pairwise fun a b => compare a.1 b.1 = .lt) {k : κ} {a : α} :
    lookup k es = some a ↔ (k, a) ∈ es := by
  induction es with
  | nil => simp [lookup]
  | cons e rest ih =>
    obtain ⟨j, b⟩ := e
    obtain ⟨hj, hrest⟩ := List.pairwise_cons.mp h
    rw [lookup, List.mem_cons, Prod.mk.injEq]
    by_cases hkj : compare k j = .eq
    · have hk : k = j := Std.LawfulEqOrd.eq_of_compare hkj
      subst hk
      have hout : (k, a) ∉ rest := fun hmem => by
        have hlt : compare k k = .lt := hj _ hmem
        rw [hkj] at hlt
        cases hlt
      simp [hout, eq_comm]
    · have hne : k ≠ j := fun hk => hkj (by rw [hk]; exact Std.ReflCmp.compare_self)
      simp [hkj, hne, ih hrest]

omit [Std.TransOrd κ] in
theorem get?_eq_some_iff (m : SortedMap κ α) {k : κ} {a : α} :
    m.get? k = some a ↔ (k, a) ∈ m.toList := lookup_eq_some_iff m.sorted

/-- Maps that answer alike are equal. -/
theorem ext_get? {m n : SortedMap κ α} (h : ∀ k, m.get? k = n.get? k) : m = n := by
  obtain ⟨es, hes⟩ := m
  obtain ⟨ds, hds⟩ := n
  have hmem : ∀ e, e ∈ es ↔ e ∈ ds := by
    rintro ⟨k, a⟩
    rw [← lookup_eq_some_iff hes, ← lookup_eq_some_iff hds]
    exact iff_of_eq (congrArg (· = some a) (h k))
  have heq : es = ds := eq_of_ascending Prod.fst hes hds hmem
  subst heq
  rfl

/-- A map is made of its entries. -/
theorem ofList_toList (m : SortedMap κ α) : ofList m.toList = m :=
  ext_get? fun k => by rw [ofList, get?_insertAll ∅ m.sorted, get?_empty, Option.or_none, get?]

/-- The entries whose keys are among `ks`. -/
def restrict [DecidableEq κ] (m : SortedMap κ α) (ks : List κ) : SortedMap κ α :=
  ⟨m.toList.filter fun e => e.1 ∈ ks, m.sorted.filter _⟩

omit [Std.TransOrd κ] in
theorem get?_restrict [DecidableEq κ] (m : SortedMap κ α) (ks : List κ) (k : κ) :
    (m.restrict ks).get? k = if k ∈ ks then m.get? k else none := by
  refine Option.ext fun a => ?_
  rw [get?_eq_some_iff]
  show (k, a) ∈ m.toList.filter _ ↔ _
  rw [List.mem_filter, ← get?_eq_some_iff]
  by_cases hk : k ∈ ks <;> simp [hk]

end SortedMap

namespace Buckets

variable {κ α : Type} [DecidableEq κ]

/-- The items of all buckets, bucket by bucket. -/
def items (b : Buckets κ α) : List α := b.flatMap Prod.snd

theorem mem_keys_add (k j : κ) (a : α) (b : Buckets κ α) :
    j ∈ (b.add k a).map Prod.fst ↔ j = k ∨ j ∈ b.map Prod.fst := by
  induction b with
  | nil => simp [add]
  | cons e rest ih =>
    obtain ⟨i, as⟩ := e
    by_cases hk : k = i
    · subst hk
      simp [add]
    · simp only [add, hk, if_false, List.map_cons, List.mem_cons, ih]
      tauto

theorem has_iff {k : κ} {b : Buckets κ α} : b.has k = true ↔ k ∈ b.map Prod.fst := by
  rw [has, List.any_eq_true, List.mem_map]
  exact exists_congr fun e => and_congr_right fun _ => by rw [decide_eq_true_eq, eq_comm]

/-- A new key comes last. -/
theorem keys_add (k : κ) (a : α) (b : Buckets κ α) : (b.add k a).map Prod.fst =
    if k ∈ b.map Prod.fst then b.map Prod.fst else b.map Prod.fst ++ [k] := by
  induction b with
  | nil => simp [add]
  | cons e rest ih =>
    obtain ⟨i, as⟩ := e
    by_cases hk : k = i
    · simp [add, hk]
    · simp only [add, hk, if_false, List.map_cons, List.mem_cons, ih, false_or]
      split <;> rfl

theorem find_eq_nil {k : κ} {b : Buckets κ α} (h : k ∉ b.map Prod.fst) : b.find k = [] := by
  induction b with
  | nil => rfl
  | cons e rest ih =>
    rw [List.map_cons, List.mem_cons, not_or] at h
    rw [find, if_neg h.1]
    exact ih h.2

theorem nodup_keys_add (k : κ) (a : α) {b : Buckets κ α} (h : (b.map Prod.fst).Nodup) :
    ((b.add k a).map Prod.fst).Nodup := by
  induction b with
  | nil => simp [add]
  | cons e rest ih =>
    obtain ⟨i, as⟩ := e
    by_cases hk : k = i
    · simpa [add, hk] using h
    · simp only [add, hk, if_false, List.map_cons, List.nodup_cons] at h ⊢
      refine ⟨?_, ih h.2⟩
      rw [mem_keys_add]
      rintro (hik | hin)
      · exact hk hik.symm
      · exact h.1 hin

theorem items_add (k : κ) (a : α) (b : Buckets κ α) : (b.add k a).items.Perm (b.items ++ [a]) := by
  induction b with
  | nil => exact .refl _
  | cons e rest ih =>
    obtain ⟨i, as⟩ := e
    by_cases hk : k = i
    · simp only [add, hk, if_true, items, List.flatMap_cons, List.append_assoc]
      have hcomm : ([a] ++ items rest).Perm (items rest ++ [a]) := List.perm_append_comm
      exact hcomm.append_left as
    · simp only [add, hk, if_false, items, List.flatMap_cons, List.append_assoc]
      exact ih.append_left as

/-- A bucket holds what is found under its key. -/
theorem find_of_mem {k : κ} {as : List α} {b : Buckets κ α} (h : (b.map Prod.fst).Nodup)
    (hmem : (k, as) ∈ b) : b.find k = as := by
  induction b with
  | nil => cases hmem
  | cons e rest ih =>
    obtain ⟨j, bs⟩ := e
    rw [List.map_cons, List.nodup_cons] at h
    rcases List.mem_cons.mp hmem with heq | hin
    · cases heq
      simp [find]
    · have hne : k ≠ j := fun hk => h.1 (hk ▸ List.mem_map.mpr ⟨_, hin, rfl⟩)
      rw [find, if_neg hne]
      exact ih h.2 hin

/-- The buckets hold the items of a list, each under its own key and in the order of the
list. -/
structure Filed (key : α → Option κ) (b : Buckets κ α) (as : List α) : Prop where
  keys : (b.map Prod.fst).Nodup
  nonempty : ∀ e ∈ b, e.2 ≠ []
  keyed : ∀ a ∈ as, (key a).isSome
  found : ∀ k, b.find k = as.filter fun a => key a = some k
  perm : b.items.Perm as

theorem Filed.nil (key : α → Option κ) : Filed key ([] : Buckets κ α) [] :=
  ⟨.nil, by simp, by simp, fun _ => rfl, .nil⟩

theorem Filed.add {key : α → Option κ} {b : Buckets κ α} {as : List α} (h : Filed key b as)
    {k : κ} {a : α} (hk : key a = some k) : Filed key (b.add k a) (as ++ [a]) where
  keys := nodup_keys_add k a h.keys
  nonempty := by
    have := h.nonempty
    clear h
    induction b with
    | nil => simp [Buckets.add]
    | cons e rest ih =>
      obtain ⟨i, bs⟩ := e
      simp only [List.forall_mem_cons] at this
      by_cases hki : k = i
      · simpa [Buckets.add, hki] using this.2
      · simp only [Buckets.add, hki, if_false, List.forall_mem_cons]
        exact ⟨this.1, ih this.2⟩
  keyed := by
    intro x hx
    rcases List.mem_append.mp hx with hx | hx
    · exact h.keyed x hx
    · rw [List.mem_singleton.mp hx, hk]
      rfl
  found := by
    intro j
    rw [find_add, h.found, List.filter_append]
    by_cases hj : j = k
    · simp [hj, hk]
    · simp [hj, hk, Ne.symm hj]
  perm := (items_add k a b).trans (h.perm.append_right _)

/-- Every item of a bucket has the bucket's key. -/
theorem Filed.key_of_mem {key : α → Option κ} {b : Buckets κ α} {as : List α} (h : Filed key b as)
    {k : κ} {bs : List α} (hb : (k, bs) ∈ b) {a : α} (ha : a ∈ bs) : key a = some k := by
  rw [← find_of_mem h.keys hb, h.found] at ha
  simpa using (List.mem_filter.mp ha).2

theorem Filed.eq_nil {key : α → Option κ} {b : Buckets κ α} (h : Filed key b []) : b = [] := by
  cases b with
  | nil => rfl
  | cons e rest =>
    have hnil : e.2 ++ items rest = [] := List.Perm.eq_nil h.perm
    exact absurd (List.append_eq_nil_iff.mp hnil).1 (h.nonempty e (List.mem_cons_self ..))

end Buckets

end HornReasoner
