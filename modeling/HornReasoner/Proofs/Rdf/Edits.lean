import HornReasoner.Proofs.Order.Lookup
import HornReasoner.Proofs.Order.Permutation
import HornReasoner.Proofs.Rdf.Query
import HornReasoner.Rdf.Collection
import HornReasoner.Rdf.Json

/-! Graphs and lists of triples.

A graph is edited by calls. After any number of them it holds the triples handed over since it was
last emptied, each at its first place, and its set and its indices answer every question as that
plain list does (`Graph.edited_agrees`). -/
namespace HornReasoner

open TripleSource

/-! ### Sources that match alike -/

section Alike
variable {σ τ : Type} [TripleSource σ] [TripleSource τ] {source : σ} {source' : τ}

theorem TripleSource.objects_congr (h : ∀ q, matching source q = matching source' q) (s p : Term) :
    objects source s p = objects source' s p := by
  simp only [objects, h]

theorem TripleSource.subjects_congr (h : ∀ q, matching source q = matching source' q)
    (p o : Term) : subjects source p o = subjects source' p o := by
  simp only [subjects, h]

theorem TripleSource.value_congr (h : ∀ q, matching source q = matching source' q) (s p : Term) :
    value source s p = value source' s p := by
  simp only [value, objects_congr h]

theorem Collection.follow_congr (h : ∀ q, matching source q = matching source' q) (fuel : Nat)
    (visited : List Term) (node : Term) :
    follow source fuel visited node = follow source' fuel visited node := by
  induction fuel generalizing visited node with
  | zero => rfl
  | succ fuel ih => simp only [follow, value_congr h, ih]

theorem Collection.items_congr (h : ∀ q, matching source q = matching source' q) (head : Term) :
    items source head = items source' head := by
  simp only [items, triples, h, follow_congr h]

end Alike

/-! ### What the indices and the set hold -/

/-- An index has an entry for a term that stands in its position, and for no other. -/
theorem TermIndex.has_ofTriples (part : Triple → Term) (ts : List Triple) (x : Term) :
    (ofTriples part ts).has x = true ↔ ∃ t ∈ ts, part t = x := by
  induction ts using List.reverseRecOn with
  | nil => simp [ofTriples, Buckets.has]
  | append_singleton ts t ih =>
    rw [Buckets.has_iff] at ih ⊢
    rw [ofTriples_concat, Buckets.mem_keys_add, ih]
    simp only [List.mem_append, List.mem_singleton]
    constructor
    · rintro (rfl | ⟨u, hu, rfl⟩)
      · exact ⟨t, .inr rfl, rfl⟩
      · exact ⟨u, .inl hu, rfl⟩
    · rintro ⟨u, hu | rfl, rfl⟩
      · exact .inr ⟨u, hu, rfl⟩
      · exact .inl rfl

namespace Graph

theorem mentions_iff (g : Graph) (x : Term) :
    g.mentions x = true ↔ ∃ t ∈ g.toList, x ∈ t.terms := by
  rw [mentions, g.bySubject_eq, g.byPredicate_eq, g.byObject_eq, Bool.or_eq_true, Bool.or_eq_true,
    TermIndex.has_ofTriples, TermIndex.has_ofTriples, TermIndex.has_ofTriples]
  simp only [Triple.terms, List.mem_cons, List.not_mem_nil, or_false]
  constructor
  · rintro ((⟨t, ht, rfl⟩ | ⟨t, ht, rfl⟩) | ⟨t, ht, rfl⟩)
    · exact ⟨t, ht, .inl rfl⟩
    · exact ⟨t, ht, .inr (.inl rfl)⟩
    · exact ⟨t, ht, .inr (.inr rfl)⟩
  · rintro ⟨t, ht, rfl | rfl | rfl⟩
    · exact .inl (.inl ⟨t, ht, rfl⟩)
    · exact .inl (.inr ⟨t, ht, rfl⟩)
    · exact .inr ⟨t, ht, rfl⟩

theorem mem_members {g : Graph} {t : Triple} : t ∈ g.members ↔ t ∈ g.toList := by
  rw [g.members_eq, List.mem_reverse]

theorem nodup_members (g : Graph) : g.members.Nodup := by
  rw [g.members_eq]
  exact List.nodup_reverse.mpr g.nodup

/-- Sets of one size are equal if one is part of the other. -/
theorem sameTriples_iff (g h : Graph) :
    g.sameTriples h = true ↔ ∀ t, t ∈ g.toList ↔ t ∈ h.toList := by
  have hperm : g.sameTriples h = true ↔ g.members.Perm h.members := by
    simp only [sameTriples, Bool.and_eq_true, beq_iff_eq, List.all_eq_true, List.contains_iff_mem]
    constructor
    · rintro ⟨hlength, hsub⟩
      have hsubperm := List.subperm_of_subset g.nodup_members hsub
      exact hsubperm.perm_of_length_le (Nat.le_of_eq hlength.symm)
    · exact fun hp => ⟨hp.length_eq, fun t ht => hp.mem_iff.mp ht⟩
  rw [hperm, List.perm_ext_iff_of_nodup g.nodup_members h.nodup_members]
  simp only [mem_members]

/-! ### Edits -/

/-- A call that changes a graph. -/
inductive Edit where
  | insert (t : Triple)
  | extend (ts : List Triple)
  | clear
  /-- The graph of the given triples takes the place of the graph. -/
  | collect (ts : List Triple)
  /-- So does the graph that a text holds, if it holds one. -/
  | load (text : String)

/-- What a call makes of a graph. -/
def Edit.apply (g : Graph) : Edit → Graph
  | insert t => g.insert t
  | extend ts => g.insertAll ts
  | clear => ∅
  | collect ts => ofList ts
  | load text => (ofText? text).getD g

/-- What a call makes of the list of the triples handed over, repeated ones included. -/
def Edit.hand (ts : List Triple) : Edit → List Triple
  | insert t => ts ++ [t]
  | extend us => ts ++ us
  | clear => []
  | collect us => us
  | load text => ((Json.parse? text).bind (·.list? Triple.ofJson?)).getD ts

/-- The graph after some calls. -/
def edited (edits : List Edit) : Graph := edits.foldl Edit.apply ∅

/-- The triples of the calls in order of insertion, each once. -/
def listed (edits : List Edit) : List Triple := (edits.foldl Edit.hand []).eraseDups

theorem toList_insert_eq (g : Graph) (t : Triple) :
    (g.insert t).toList = (g.toList ++ [t]).eraseDups := by
  rw [toList_insert, List.eraseDups_append, eraseDups_of_nodup g.nodup]
  by_cases ht : t ∈ g.toList <;> simp [List.removeAll, ht, List.eraseDups_cons]

theorem toList_insertAll (g : Graph) (ts : List Triple) :
    (g.insertAll ts).toList = (g.toList ++ ts).eraseDups := by
  induction ts generalizing g with
  | nil => rw [List.append_nil, eraseDups_of_nodup g.nodup]; rfl
  | cons t ts ih =>
    show ((g.insert t).insertAll ts).toList = _
    rw [ih, toList_insert_eq, eraseDups_append_left, List.append_assoc, List.singleton_append]

theorem toList_ofList (ts : List Triple) : (ofList ts).toList = ts.eraseDups :=
  toList_insertAll ∅ ts

theorem ofText?_eq (text : String) :
    ofText? text = ((Json.parse? text).bind (·.list? Triple.ofJson?)).map ofList := by
  rw [ofText?]
  cases Json.parse? text with
  | none => rfl
  | some j => cases h : j.list? Triple.ofJson? <;> simp [h]

/-- A call does to the graph what it does to the list. -/
theorem toList_apply {g : Graph} {ts : List Triple} (h : g.toList = ts.eraseDups) (e : Edit) :
    (e.apply g).toList = (e.hand ts).eraseDups := by
  cases e with
  | insert t => rw [Edit.apply, Edit.hand, toList_insert_eq, h, eraseDups_append_left]
  | extend us => rw [Edit.apply, Edit.hand, toList_insertAll, h, eraseDups_append_left]
  | clear => rfl
  | collect us => exact toList_ofList us
  | load text =>
    rw [Edit.apply, Edit.hand, ofText?_eq]
    cases (Json.parse? text).bind (·.list? Triple.ofJson?) with
    | none => exact h
    | some us => exact toList_ofList us

theorem toList_edited (edits : List Edit) : (edited edits).toList = listed edits := by
  have hrun : ∀ (edits : List Edit) (g : Graph) (ts : List Triple), g.toList = ts.eraseDups →
      (edits.foldl Edit.apply g).toList = (edits.foldl Edit.hand ts).eraseDups := by
    intro edits
    induction edits with
    | nil => exact fun g ts h => h
    | cons e rest ih => exact fun g ts h => ih _ _ (toList_apply h e)
  exact hrun edits ∅ [] rfl

/-- **After any calls a graph answers as the plain list of its triples**, which are those handed
over, in order and each once. -/
theorem edited_agrees (edits : List Edit) :
    (edited edits).toList = listed edits ∧
    (∀ q, TripleSource.matching (edited edits) q = (listed edits).filter q.holds) ∧
    (∀ t, TripleSource.contains (edited edits) t = TripleSource.contains (listed edits) t) ∧
    (∀ s p, objects (edited edits) s p = objects (listed edits) s p) ∧
    (∀ p o, subjects (edited edits) p o = subjects (listed edits) p o) ∧
    (∀ s p, value (edited edits) s p = value (listed edits) s p) ∧
    (∀ head, Collection.items (edited edits) head = Collection.items (listed edits) head) ∧
    (∀ x, (edited edits).mentions x = true ↔ ∃ t ∈ listed edits, x ∈ t.terms) ∧
    ∀ others, (edited edits).sameTriples (edited others) = true ↔
      ∀ t, t ∈ listed edits ↔ t ∈ listed others := by
  have hlist := toList_edited edits
  have hmatching : ∀ q, TripleSource.matching (edited edits) q =
      TripleSource.matching (listed edits) q := fun q =>
    ((edited edits).matching_eq q).trans (congrArg (List.filter q.holds) hlist)
  refine ⟨hlist, hmatching, fun t => ?_, objects_congr hmatching, subjects_congr hmatching,
    value_congr hmatching, Collection.items_congr hmatching, fun x => ?_, fun others => ?_⟩
  · show (edited edits).contains t = (listed edits).contains t
    rw [Bool.eq_iff_iff, contains_iff, List.contains_iff_mem, hlist]
  · rw [mentions_iff, hlist]
  · rw [sameTriples_iff, hlist, toList_edited others]

end Graph

end HornReasoner
