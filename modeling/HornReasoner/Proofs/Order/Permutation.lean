import Mathlib.Data.List.Flatten
import Mathlib.Data.List.Induction
import Mathlib.Data.List.Nodup
import Mathlib.Data.List.Perm.Subperm

/-! Lists put together from parts, one for each of some distinct indices, properties that pass
along a list, and lists that are parts of others. -/
namespace HornReasoner

variable {α β : Type}

/-- If one index alone has items, its items are all there are. -/
theorem flatMap_eq_of_unique {l : List α} (hl : l.Nodup) {a : α} (ha : a ∈ l) {g : α → List β}
    (h : ∀ x ∈ l, x ≠ a → g x = []) : l.flatMap g = g a := by
  induction l with
  | nil => cases ha
  | cons x rest ih =>
    obtain ⟨hx, hrest⟩ := List.nodup_cons.mp hl
    rw [List.flatMap_cons]
    by_cases hxa : x = a
    · subst hxa
      have hnil : rest.flatMap g = [] := List.flatMap_eq_nil_iff.mpr fun y hy =>
        h y (List.mem_cons_of_mem _ hy) fun hyx => hx (hyx ▸ hy)
      rw [hnil, List.append_nil]
    · rw [h x (List.mem_cons_self ..) hxa, List.nil_append]
      exact ih hrest ((List.mem_cons.mp ha).resolve_left (Ne.symm hxa))
        fun y hy => h y (List.mem_cons_of_mem _ hy)

/-- If one index alone gets items, these are all that come in addition. -/
theorem flatMap_perm_append_of_unique {l : List α} (hl : l.Nodup) {a : α} (ha : a ∈ l)
    {g g' : α → List β} {extra : List β} (hne : ∀ x ∈ l, x ≠ a → g' x = g x)
    (heq : (g' a).Perm (g a ++ extra)) : (l.flatMap g').Perm (l.flatMap g ++ extra) := by
  induction l with
  | nil => cases ha
  | cons x rest ih =>
    obtain ⟨hx, hrest⟩ := List.nodup_cons.mp hl
    rw [List.flatMap_cons, List.flatMap_cons]
    by_cases hxa : x = a
    · subst hxa
      have hsame : rest.flatMap g' = rest.flatMap g := List.flatMap_congr fun y hy =>
        hne y (List.mem_cons_of_mem _ hy) fun hyx => hx (hyx ▸ hy)
      rw [hsame]
      refine (heq.append_right _).trans ?_
      rw [List.append_assoc, List.append_assoc]
      exact List.perm_append_comm.append_left _
    · rw [hne x (List.mem_cons_self ..) hxa, List.append_assoc]
      refine (ih hrest ((List.mem_cons.mp ha).resolve_left (Ne.symm hxa))
        fun y hy => hne y (List.mem_cons_of_mem _ hy)).append_left _

/-- If an element is the only one with a value, its value is all there is. -/
theorem filterMap_eq_of_unique {l : List α} (hl : l.Nodup) {a : α} (ha : a ∈ l)
    {g : α → Option β} (h : ∀ x ∈ l, x ≠ a → g x = none) : l.filterMap g = (g a).toList := by
  rw [List.filterMap_eq_flatMap_toList]
  refine flatMap_eq_of_unique hl ha fun x hx hxa => ?_
  rw [h x hx hxa]
  rfl

/-- Elements without items can be left out. -/
theorem flatMap_filter_of_eq_nil {l : List α} {p : α → Bool} {g : α → List β}
    (h : ∀ x ∈ l, p x = false → g x = []) : (l.filter p).flatMap g = l.flatMap g := by
  induction l with
  | nil => rfl
  | cons x rest ih =>
    have hrest := ih fun y hy => h y (List.mem_cons_of_mem _ hy)
    cases hp : p x with
    | false => rw [List.filter_cons_of_neg (by simp [hp]), List.flatMap_cons,
        h x (List.mem_cons_self ..) hp, List.nil_append, hrest]
    | true => rw [List.filter_cons_of_pos hp, List.flatMap_cons, List.flatMap_cons, hrest]

/-- Two tests that exclude each other and cover the elements of interest pick these. -/
theorem filter_append_filter_perm {l : List α} {p q keep : α → Bool}
    (h : ∀ x ∈ l, keep x = true → q x = !p x) :
    ((l.filter p ++ l.filter q).filter keep).Perm (l.filter keep) := by
  have hq : (l.filter q).filter keep = (l.filter keep).filter fun x => !p x := by
    rw [List.filter_filter, List.filter_filter]
    refine List.filter_congr fun x hx => ?_
    cases hk : keep x with
    | false => simp
    | true => simp [h x hx hk]
  have hp : (l.filter p).filter keep = (l.filter keep).filter p := List.filter_comm ..
  rw [List.filter_append, hp, hq]
  exact List.filter_append_perm p _

/-- A list by its positions. -/
theorem flatMap_range_getElem? (l : List α) (g : α → List β) :
    ((List.range l.length).flatMap fun n => ((l[n]?).map g).getD []) = l.flatMap g := by
  induction l using List.reverseRecOn with
  | nil => rfl
  | append_singleton init a ih =>
    rw [List.length_append, List.length_singleton, List.range_succ, List.flatMap_append,
      List.flatMap_append, ← ih]
    congr 1
    · refine List.flatMap_congr fun n hn => ?_
      rw [List.getElem?_append_left (List.mem_range.mp hn)]
    · simp

/-- Items taken two at a time: those of longer lists are those of the shorter ones and those with
a new first one. -/
theorem flatMap_filterMap_append_singleton {γ : Type} (f : α → β → Option γ) (as : List α)
    (bs : List β) (b : β) :
    (as.flatMap fun a => (bs ++ [b]).filterMap (f a)).Perm
      ((as.flatMap fun a => bs.filterMap (f a)) ++ as.filterMap (f · b)) := by
  induction as with
  | nil => exact .refl _
  | cons a rest ih =>
    have hlast : ([b].filterMap (f a)) ++ rest.filterMap (f · b) =
        (a :: rest).filterMap (f · b) := by
      cases h : f a b <;> simp [h]
    rw [List.flatMap_cons, List.flatMap_cons, List.filterMap_append, ← hlast, List.append_assoc,
      List.append_assoc]
    refine ((ih.append_left _).trans ?_).append_left _
    rw [← List.append_assoc, ← List.append_assoc]
    exact List.perm_append_comm.append_right _

/-- Permuted lists have the same one element, or both none or several. -/
theorem cases_of_perm {as bs : List α} (h : as.Perm bs) : (as = [] ∧ bs = []) ∨
    (∃ a, as = [a] ∧ bs = [a]) ∨
    ∃ a b rest a' b' rest', as = a :: b :: rest ∧ bs = a' :: b' :: rest' := by
  rcases as with _ | ⟨a, _ | ⟨b, rest⟩⟩
  · exact .inl ⟨rfl, h.nil_eq.symm⟩
  · exact .inr (.inl ⟨a, rfl, (List.singleton_perm.mp h).symm⟩)
  · have hlength := h.length_eq
    rcases bs with _ | ⟨a', _ | ⟨b', rest'⟩⟩
    · cases hlength
    · cases hlength
    · exact .inr (.inr ⟨_, _, _, _, _, _, rfl, rfl⟩)

/-- What is there twice makes at least two. -/
theorem exists_cons_cons_of_not_nodup {l : List α} (h : ¬ l.Nodup) :
    ∃ a b rest, l = a :: b :: rest := by
  rcases l with _ | ⟨a, _ | ⟨b, rest⟩⟩
  · exact absurd List.nodup_nil h
  · exact absurd (List.nodup_singleton a) h
  · exact ⟨a, b, rest, rfl⟩

theorem nodup_eraseDups [BEq α] [LawfulBEq α] (l : List α) : l.eraseDups.Nodup := by
  induction hn : l.length using Nat.strongRecOn generalizing l with
  | ind n ih =>
    cases l with
    | nil => exact .nil
    | cons a rest =>
      rw [List.eraseDups_cons, List.nodup_cons, List.mem_eraseDups]
      have hshort : (rest.filter fun b => !b == a).length < n :=
        hn ▸ Nat.lt_succ_of_le (List.length_filter_le ..)
      exact ⟨by simp, ih _ hshort _ rfl⟩

theorem eraseDups_of_nodup [BEq α] [LawfulBEq α] {l : List α} (h : l.Nodup) : l.eraseDups = l := by
  induction l with
  | nil => rfl
  | cons a rest ih =>
    obtain ⟨ha, hrest⟩ := List.nodup_cons.mp h
    have hothers : (rest.filter fun b => !b == a) = rest :=
      List.filter_eq_self.mpr fun b hb => by simpa using ne_of_mem_of_not_mem hb ha
    rw [List.eraseDups_cons, hothers, ih hrest]

/-- What stands twice in front of a list may be left out before. -/
theorem eraseDups_append_left [BEq α] [LawfulBEq α] (as bs : List α) :
    (as.eraseDups ++ bs).eraseDups = (as ++ bs).eraseDups := by
  have hrest : bs.removeAll as.eraseDups = bs.removeAll as := by
    refine List.filter_congr fun b _ => ?_
    rw [Bool.eq_iff_iff]
    simp
  rw [List.eraseDups_append, List.eraseDups_append, eraseDups_of_nodup (nodup_eraseDups as), hrest]

/-- A property that each element of a list has if those before it have it. -/
theorem forall_mem_of_before {P : α → Prop} {as : List α} (hnodup : as.Nodup)
    (h : ∀ a ∈ as, ∃ before after, as = before ++ a :: after ∧ ((∀ b ∈ before, P b) → P a)) :
    ∀ a ∈ as, P a := by
  have hprefix : ∀ start, start <+: as → ∀ a ∈ start, P a := by
    intro start
    -- the elements before the last one of a start are again a start
    induction start using List.reverseRecOn with
    | nil => simp
    | append_singleton start last ih =>
      intro hstart
      have hbefore := ih ((List.prefix_append start [last]).trans hstart)
      obtain ⟨rest, hrest⟩ := hstart
      rw [List.append_assoc, List.singleton_append] at hrest
      obtain ⟨before, after, hsplit, hlast⟩ := h last (by simp [← hrest])
      obtain ⟨_, hnot, hdisjoint⟩ := List.nodup_append.mp (hrest ▸ hnodup)
      have hstart : last ∉ start := fun hmem =>
        hdisjoint last hmem last (List.mem_cons_self ..) rfl
      obtain ⟨heq, _⟩ := (List.append_cons_inj_of_notMem hstart
        (List.nodup_cons.mp hnot).1).mp (hrest.trans hsplit)
      intro a ha
      rcases List.mem_append.mp ha with ha | ha
      · exact hbefore a ha
      · exact List.mem_singleton.mp ha ▸ hlast (heq ▸ hbefore)
  exact hprefix _ List.prefix_rfl

/-! ### Parts of lists -/

theorem subperm_filterMap {l l' : List α} (f : α → Option β) (h : l.Subperm l') :
    (l.filterMap f).Subperm (l'.filterMap f) := by
  obtain ⟨m, hperm, hsub⟩ := h
  exact ⟨m.filterMap f, hperm.filterMap f, hsub.filterMap f⟩

theorem subperm_flatMap {l l' : List α} {f g : α → List β} (h : l.Subperm l')
    (hfg : ∀ a ∈ l, (f a).Subperm (g a)) : (l.flatMap f).Subperm (l'.flatMap g) := by
  have hsame : (l.flatMap f).Subperm (l.flatMap g) := by
    clear h
    induction l with
    | nil => exact .refl _
    | cons a rest ih =>
      rw [List.flatMap_cons, List.flatMap_cons]
      exact (hfg a (List.mem_cons_self ..)).append
        (ih fun b hb => hfg b (List.mem_cons_of_mem _ hb))
  obtain ⟨m, hperm, hsub⟩ := h
  exact hsame.trans ⟨m.flatMap g, hperm.flatMap_right g, hsub.flatMap g⟩

/-- Lists that agree key by key have the same items. -/
theorem map_perm_of_filter [DecidableEq β] {γ δ : Type} {l : List γ} {l' : List δ} {f : γ → Nat}
    {g : δ → Nat} {u : γ → β} {v : δ → β}
    (h : ∀ k, (l.filter (f · == k)).map u = (l'.filter (g · == k)).map v) :
    (l.map u).Perm (l'.map v) := by
  have hcount : ∀ {ε : Type} (l : List ε) (f : ε → Nat) (u : ε → β) (k : Nat) (b : β),
      (l.map fun x => (f x, u x)).count (k, b) = ((l.filter (f · == k)).map u).count b := by
    intro ε l f u k b
    rw [List.count, List.count, List.countP_map, List.countP_map, List.countP_filter]
    refine List.countP_congr fun x _ => ?_
    simp [and_comm]
  have hpairs : (l.map fun x => (f x, u x)).Perm (l'.map fun x => (g x, v x)) := by
    refine List.perm_iff_count.mpr fun e => ?_
    rw [hcount, hcount, h]
  simpa [Function.comp_def] using hpairs.map Prod.snd

end HornReasoner
