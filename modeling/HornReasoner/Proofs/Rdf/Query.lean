import HornReasoner.Proofs.Order.Permutation
import HornReasoner.Rdf.Graph
import Mathlib.Data.List.Basic
import Mathlib.Data.List.Induction
import Mathlib.Data.List.Nodup
import Mathlib.Data.List.TakeWhile

/-! Queries on graphs.

An index files the positions of the triples under their terms, ascending. A query intersects what
it finds in three indices, and what is left are the positions of the triples that hold the query:
a graph answers as the list of its triples does (`Graph.matching_eq`). -/
namespace HornReasoner

/-- The positions at which the triple satisfies `p`, ascending. -/
def positionsOf (ts : List Triple) (p : Triple → Bool) : List Nat :=
  (List.range ts.length).filter fun i => ts[i]?.any p

variable {ts : List Triple} {t : Triple} {p q : Triple → Bool}

theorem mem_positionsOf {i : Nat} : i ∈ positionsOf ts p ↔ ∃ t, ts[i]? = some t ∧ p t = true := by
  rw [positionsOf, List.mem_filter, List.mem_range, Option.any_eq_true]
  constructor
  · exact fun h => h.2
  · exact fun ⟨t, ht, hp⟩ => ⟨(List.getElem?_eq_some_iff.mp ht).1, t, ht, hp⟩

theorem positionsOf_true : positionsOf ts (fun _ => true) = List.range ts.length := by
  refine List.filter_eq_self.mpr fun i hi => ?_
  rw [List.getElem?_eq_getElem (List.mem_range.mp hi)]
  rfl

theorem positionsOf_concat : positionsOf (ts ++ [t]) p =
    if p t then positionsOf ts p ++ [ts.length] else positionsOf ts p := by
  have hbefore : (List.range ts.length).filter (fun i => (ts ++ [t])[i]?.any p) =
      positionsOf ts p := by
    refine List.filter_congr fun i hi => ?_
    rw [List.getElem?_append_left (List.mem_range.mp hi)]
  rw [positionsOf, List.length_append, List.length_singleton, List.range_succ, List.filter_append,
    hbefore, List.filter_cons, List.getElem?_concat_length, Option.any_some]
  split <;> simp

theorem positionsOf_ascending : (positionsOf ts p).Pairwise (· < ·) :=
  List.pairwise_lt_range.filter _

/-- Skipping the numbers below `i` loses none from `i` on. -/
theorem mem_dropWhile_lt {i k : Nat} {js : List Nat} (hk : i ≤ k) :
    k ∈ js.dropWhile (· < i) ↔ k ∈ js := by
  have hskipped : k ∉ js.takeWhile (· < i) := fun h => by
    have := List.mem_takeWhile_imp (p := (· < i)) h
    simp only [decide_eq_true_eq] at this
    omega
  conv_rhs => rw [← List.takeWhile_append_dropWhile (p := (· < i)) (l := js), List.mem_append]
  simp [hskipped]

/-- Walking along two ascending lists finds what filtering one by the other does. -/
theorem intersect_eq_filter {is js : List Nat} (his : is.Pairwise (· < ·))
    (hjs : js.Pairwise (· < ·)) : Graph.intersect is js = is.filter js.contains := by
  induction is generalizing js with
  | nil => rfl
  | cons i is ih =>
    obtain ⟨hbelow, his⟩ := List.pairwise_cons.mp his
    have hsame : (i :: is).filter js.contains =
        (i :: is).filter (js.dropWhile (· < i)).contains := by
      refine List.filter_congr fun k hk => ?_
      have hle : i ≤ k := by
        rcases List.mem_cons.mp hk with rfl | hk
        · exact Nat.le_refl _
        · exact Nat.le_of_lt (hbelow k hk)
      rw [Bool.eq_iff_iff, List.contains_iff_mem, List.contains_iff_mem, mem_dropWhile_lt hle]
    rw [hsame]
    have hrest := hjs.sublist (List.dropWhile_sublist (· < i))
    have hhead : ∀ j rest, js.dropWhile (· < i) = j :: rest → i ≤ j := fun j rest h => by
      have := List.head_dropWhile_not (· < i) (l := js) (by simp [h])
      simp only [h, List.head_cons, decide_eq_false_iff_not] at this
      omega
    simp only [Graph.intersect]
    cases hdrop : js.dropWhile (· < i) with
    | nil => simp
    | cons j rest =>
      rw [hdrop] at hrest
      have hle := hhead j rest hdrop
      have hafter := (List.pairwise_cons.mp hrest).1
      by_cases hij : i = j
      · subst hij
        have hcongr : is.filter (i :: rest).contains = is.filter rest.contains :=
          List.filter_congr fun k hk => by
            have hne : k ≠ i := by have := hbelow k hk; omega
            simp [hne]
        simp [ih his (List.pairwise_cons.mp hrest).2, hcongr]
      · have hnot : ¬(j :: rest).contains i = true := by
          rw [List.contains_iff_mem, List.mem_cons]
          rintro (h | h)
          · exact hij h
          · have := hafter i h
            omega
        rw [List.filter_cons_of_neg hnot]
        simp only [hij, if_false]
        exact ih his hrest

/-- The positions of both are the positions of the conjunction. -/
theorem intersect_positionsOf : Graph.intersect (positionsOf ts p) (positionsOf ts q) =
    positionsOf ts fun t => p t && q t := by
  rw [intersect_eq_filter positionsOf_ascending positionsOf_ascending]
  show ((List.range ts.length).filter fun i => ts[i]?.any p).filter (positionsOf ts q).contains = _
  rw [List.filter_filter]
  refine List.filter_congr fun i hi => ?_
  have hget := List.getElem?_eq_getElem (List.mem_range.mp hi)
  rw [Bool.eq_iff_iff, Bool.and_eq_true, List.contains_iff_mem, mem_positionsOf, hget]
  simp [and_comm]

/-- The triples at these positions are the triples that satisfy `p`. -/
theorem filterMap_positionsOf :
    ((positionsOf ts p).filterMap fun i => ts[i]?) = ts.filter p := by
  induction ts using List.reverseRecOn with
  | nil => rfl
  | append_singleton ts t ih =>
    have hbefore : ((positionsOf ts p).filterMap fun i => (ts ++ [t])[i]?) = ts.filter p := by
      rw [← ih]
      refine List.filterMap_congr fun i hi => ?_
      obtain ⟨u, hu, _⟩ := mem_positionsOf.mp hi
      exact List.getElem?_append_left (List.getElem?_eq_some_iff.mp hu).1
    rw [positionsOf_concat, List.filter_append, List.filter_cons]
    split
    · rw [List.filterMap_append, hbefore]
      simp
    · rw [hbefore]
      simp

/-- An index finds the positions of the triples that have the term. -/
theorem TermIndex.find_ofTriples (part : Triple → Term) (ts : List Triple) (x : Term) :
    (ofTriples part ts).find x = positionsOf ts fun t => part t == x := by
  induction ts using List.reverseRecOn with
  | nil => rfl
  | append_singleton ts t ih =>
    rw [ofTriples_concat, Buckets.find_add, ih, positionsOf_concat]
    exact if_congr (by rw [beq_iff_eq, eq_comm]) rfl rfl

theorem Query.holds_about {node predicate : Term} :
    ({ subject := node, predicate := predicate } : Query).holds t = true ↔
      t.subject = node ∧ t.predicate = predicate := by
  simp [holds]

/-- The order of the objects does not matter to whether there is one only. -/
theorem TripleSource.value_eq_of_perm {σ τ : Type} [TripleSource σ] [TripleSource τ] {source : σ}
    {source' : τ} {node predicate : Term}
    (h : (objects source node predicate).Perm (objects source' node predicate)) :
    value source node predicate = value source' node predicate := by
  unfold value
  rcases cases_of_perm h with ⟨hnone, hnone'⟩ | ⟨o, hone, hone'⟩ | ⟨_, _, _, _, _, _, hmany, hmany'⟩
  · rw [hnone, hnone']
  · rw [hone, hone']
  · rw [hmany, hmany']

namespace Graph

theorem positions_eq (g : Graph) (q : Query) : g.positions q = positionsOf g.toList q.holds := by
  have hsubject := TermIndex.find_ofTriples Triple.subject g.toList
  have hpredicate := TermIndex.find_ofTriples Triple.predicate g.toList
  have hobject := TermIndex.find_ofTriples Triple.object g.toList
  rw [← g.bySubject_eq] at hsubject
  rw [← g.byPredicate_eq] at hpredicate
  rw [← g.byObject_eq] at hobject
  obtain ⟨s, p, o⟩ := q
  unfold Query.holds
  cases s <;> cases p <;> cases o <;>
    simp [positions, hsubject, hpredicate, hobject, intersect_positionsOf, positionsOf_true, size]

/-- **A graph answers a query with its triples that hold it, in order.** -/
theorem matching_eq (g : Graph) (q : Query) : g.matching q = g.toList.filter q.holds := by
  rw [matching, positions_eq, filterMap_positionsOf]

open TripleSource

variable {g : Graph} {node predicate o : Term}

theorem objects_eq (g : Graph) (node predicate : Term) : objects g node predicate =
    (g.toList.filter ({ subject := node, predicate := predicate } : Query).holds).map
      Triple.object :=
  congrArg (List.map Triple.object) (g.matching_eq _)

theorem triples_eq (g : Graph) : triples g = g.toList :=
  (g.matching_eq {}).trans (List.filter_eq_self.mpr fun _ _ => rfl)

theorem mem_objects : o ∈ objects g node predicate ↔ ⟨node, predicate, o⟩ ∈ g.toList := by
  rw [objects_eq, List.mem_map]
  constructor
  · rintro ⟨t, ht, rfl⟩
    obtain ⟨hmem, hholds⟩ := List.mem_filter.mp ht
    obtain ⟨rfl, rfl⟩ := Query.holds_about.mp hholds
    exact hmem
  · exact fun ht => ⟨_, List.mem_filter.mpr ⟨ht, Query.holds_about.mpr ⟨rfl, rfl⟩⟩, rfl⟩

/-- Distinct triples about one node with one predicate have distinct objects. -/
theorem nodup_objects (g : Graph) (node predicate : Term) : (objects g node predicate).Nodup := by
  rw [objects_eq]
  refine List.Nodup.map_on (fun t ht u hu hobject => ?_) (g.nodup.filter _)
  obtain ⟨htsubject, htpredicate⟩ := Query.holds_about.mp (List.mem_filter.mp ht).2
  obtain ⟨husubject, hupredicate⟩ := Query.holds_about.mp (List.mem_filter.mp hu).2
  cases t
  cases u
  cases htsubject.trans husubject.symm
  cases htpredicate.trans hupredicate.symm
  cases hobject
  rfl

/-- A node has a value for a predicate if it stands in exactly one triple with it. -/
theorem value_eq_some_iff :
    value g node predicate = some o ↔ ∀ u, ⟨node, predicate, u⟩ ∈ g.toList ↔ u = o := by
  simp only [← mem_objects]
  constructor
  · intro h u
    unfold value at h
    split at h
    · rename_i hobjects
      cases h
      rw [hobjects, List.mem_singleton]
    · cases h
  · intro h
    have hperm : (objects g node predicate).Perm [o] :=
      (List.perm_ext_iff_of_nodup (g.nodup_objects node predicate) (List.nodup_singleton o)).mpr
        fun u => (h u).trans List.mem_singleton.symm
    rw [value, List.perm_singleton.mp hperm]

end Graph

end HornReasoner
