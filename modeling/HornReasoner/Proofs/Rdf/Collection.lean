import HornReasoner.Proofs.Rdf.Query
import HornReasoner.Rdf.Collection
import Mathlib.Data.List.Perm.Subperm

/-! What a collection says.

The cells of a collection form a chain, each with one item and one next node. A chain of distinct
cells is at most as long as the graph (`Chain.length_le`), so it comes to an end in one of three
ways (`exists_ends`), and following it finds the items or says which way it was
(`follow_eq_of_ends`). -/
namespace HornReasoner.Collection

open TripleSource Vocabulary

/-- The node has exactly one `rdf:first`, the item, and exactly one `rdf:rest`, the next node. -/
structure IsCell (g : Graph) (node item next : Term) : Prop where
  first : ∀ o, ⟨node, .iri Rdf.first, o⟩ ∈ g.toList ↔ o = item
  rest : ∀ o, ⟨node, .iri Rdf.rest, o⟩ ∈ g.toList ↔ o = next

/-- The cells with their items lead from a node to the last one; `rdf:nil` is no cell. -/
inductive Chain (g : Graph) : Term → List Term → List Term → Term → Prop where
  | nil (node : Term) : Chain g node [] [] node
  | cons {node item next last : Term} {cells found : List Term} : node ≠ .iri Rdf.nil →
      IsCell g node item next → Chain g next cells found last →
      Chain g node (node :: cells) (item :: found) last

/-- How a chain ends, and what reading it gives. -/
inductive Ends (g : Graph) (cells found : List Term) (last : Term) :
    Except Fault (List Term) → Prop where
  | closed : last = .iri Rdf.nil → Ends g cells found last (.ok found)
  | cyclic : last ∈ cells → Ends g cells found last (.error (.cyclic last))
  | malformed : last ≠ .iri Rdf.nil → (¬ ∃ item next, IsCell g last item next) →
      Ends g cells found last (.error (.malformed last))

variable {g : Graph} {node item next last : Term} {cells found visited : List Term}

/-! ### Cells -/

theorem isCell_iff : IsCell g node item next ↔
    value g node (.iri Rdf.first) = some item ∧ value g node (.iri Rdf.rest) = some next := by
  rw [Graph.value_eq_some_iff, Graph.value_eq_some_iff]
  exact ⟨fun h => ⟨h.first, h.rest⟩, fun ⟨hfirst, hrest⟩ => ⟨hfirst, hrest⟩⟩

theorem exists_isCell_iff : (∃ item next, IsCell g node item next) ↔
    ∃ item next, value g node (.iri Rdf.first) = some item ∧
      value g node (.iri Rdf.rest) = some next := by
  simp only [isCell_iff]

/-! ### Steps -/

section Step
variable {σ : Type} [TripleSource σ] {source : σ}

theorem follow_of_values (hnil : node ≠ .iri Rdf.nil) (hnew : node ∉ visited)
    (hfirst : value source node (.iri Rdf.first) = some item)
    (hrest : value source node (.iri Rdf.rest) = some next) (fuel : Nat) :
    follow source (fuel + 1) visited node =
      (follow source fuel (node :: visited) next).map (item :: ·) := by
  rw [follow, if_neg hnil, if_neg hnew, hfirst, hrest]

theorem follow_of_no_values (hnil : node ≠ .iri Rdf.nil) (hnew : node ∉ visited)
    (hnone : ¬ ∃ item next, value source node (.iri Rdf.first) = some item ∧
      value source node (.iri Rdf.rest) = some next) (fuel : Nat) :
    follow source (fuel + 1) visited node = .error (.malformed node) := by
  rw [follow, if_neg hnil, if_neg hnew]
  cases hfirst : value source node (.iri Rdf.first) with
  | none => rfl
  | some item =>
    cases hrest : value source node (.iri Rdf.rest) with
    | none => rfl
    | some next => exact absurd ⟨item, next, hfirst, hrest⟩ hnone

end Step

/-- Cells that are new stay new when another one is visited. -/
theorem forall_not_mem_cons (hnode : node ∉ cells) (hnew : ∀ cell ∈ cells, cell ∉ visited) :
    ∀ cell ∈ cells, cell ∉ node :: visited := by
  intro cell hcell hmem
  rcases List.mem_cons.mp hmem with rfl | hmem
  · exact hnode hcell
  · exact hnew cell hcell hmem

/-! ### Chains -/

namespace Chain

theorem snoc (h : Chain g node cells found last) (hlast : last ≠ .iri Rdf.nil)
    (hcell : IsCell g last item next) : Chain g node (cells ++ [last]) (found ++ [item]) next := by
  induction h with
  | nil node => exact .cons hlast hcell (.nil next)
  | cons hnode hfirst _ ih => exact .cons hnode hfirst (ih hlast hcell)

theorem ne_nil_of_mem (h : Chain g node cells found last) :
    ∀ cell ∈ cells, cell ≠ .iri Rdf.nil := by
  induction h with
  | nil node => simp
  | cons hnode _ _ ih => exact List.forall_mem_cons.mpr ⟨hnode, ih⟩

theorem isCell_of_mem (h : Chain g node cells found last) :
    ∀ cell ∈ cells, ∃ item next, IsCell g cell item next := by
  induction h with
  | nil node => simp
  | cons _ hcell _ ih => exact List.forall_mem_cons.mpr ⟨⟨_, _, hcell⟩, ih⟩

theorem subject_of_mem (h : Chain g node cells found last) :
    cells ⊆ g.toList.map Triple.subject := by
  induction h with
  | nil node => exact List.nil_subset _
  | @cons node item _ _ _ _ _ hcell _ ih =>
    refine List.cons_subset.mpr ⟨?_, ih⟩
    exact List.mem_map.mpr ⟨_, (hcell.first item).mpr rfl, rfl⟩

/-- Distinct cells have distinct triples. -/
theorem length_le (h : Chain g node cells found last) (hcells : cells.Nodup) :
    cells.length ≤ (triples g).length := by
  have hle := (List.subperm_of_subset hcells h.subject_of_mem).length_le
  rw [List.length_map] at hle
  rw [Graph.triples_eq]
  exact hle

/-- Following a chain of new cells comes to its last node with their items in hand. -/
theorem follow_eq (h : Chain g node cells found last) (hcells : cells.Nodup)
    (hnew : ∀ cell ∈ cells, cell ∉ visited) (fuel : Nat) :
    follow g (cells.length + fuel) visited node =
      (follow g fuel (cells.reverse ++ visited) last).map (found ++ ·) := by
  induction h generalizing visited with
  | nil node =>
    show follow g (0 + fuel) visited node = _
    rw [Nat.zero_add]
    cases hfollow : follow g fuel visited node <;> simp [hfollow, Except.map]
  | @cons node item next last cells found hnode hcell _ ih =>
    obtain ⟨hnotin, hcells⟩ := List.nodup_cons.mp hcells
    obtain ⟨hunseen, hnew⟩ := List.forall_mem_cons.mp hnew
    obtain ⟨hfirst, hrest⟩ := isCell_iff.mp hcell
    rw [List.length_cons, Nat.succ_add, follow_of_values hnode hunseen hfirst hrest,
      ih hcells (forall_not_mem_cons hnotin hnew), List.reverse_cons, List.append_assoc,
      List.singleton_append]
    cases follow g fuel (cells.reverse ++ node :: visited) last <;> rfl

end Chain

/-! ### Ends -/

/-- At the end of a chain reading stops. -/
theorem follow_eq_of_ends {result : Except Fault (List Term)} (h : Chain g node cells found last)
    (hcells : cells.Nodup) (hends : Ends g cells found last result) {fuel : Nat}
    (hfuel : cells.length < fuel) : follow g fuel [] node = result := by
  obtain ⟨fuel, rfl⟩ : ∃ k, fuel = cells.length + (k + 1) := ⟨fuel - cells.length - 1, by omega⟩
  rw [h.follow_eq hcells (fun _ _ => List.not_mem_nil), List.append_nil]
  cases hends with
  | closed hlast =>
    rw [follow, if_pos hlast]
    exact congrArg Except.ok (List.append_nil found)
  | cyclic hmem =>
    rw [follow, if_neg (h.ne_nil_of_mem last hmem), if_pos (List.mem_reverse.mpr hmem)]
    rfl
  | malformed hlast hnone =>
    have hnew : last ∉ cells.reverse := fun hmem =>
      hnone (h.isCell_of_mem last (List.mem_reverse.mp hmem))
    rw [follow_of_no_values hlast hnew (mt exists_isCell_iff.mpr hnone)]
    rfl

/-- A chain comes to an end or has a chain of any length in front of it. -/
theorem ends_or_long (g : Graph) (head : Term) (n : Nat) :
    (∃ cells found last result, Chain g head cells found last ∧ cells.Nodup ∧
      Ends g cells found last result) ∨
    ∃ cells found last, Chain g head cells found last ∧ cells.Nodup ∧ cells.length = n := by
  induction n with
  | zero => exact .inr ⟨[], [], head, .nil head, .nil, rfl⟩
  | succ n ih =>
    rcases ih with hends | ⟨cells, found, last, h, hcells, hlength⟩
    · exact .inl hends
    by_cases hnil : last = .iri Rdf.nil
    · exact .inl ⟨cells, found, last, _, h, hcells, .closed hnil⟩
    by_cases hmem : last ∈ cells
    · exact .inl ⟨cells, found, last, _, h, hcells, .cyclic hmem⟩
    by_cases hcell : ∃ item next, IsCell g last item next
    · obtain ⟨item, next, hcell⟩ := hcell
      refine .inr ⟨cells ++ [last], found ++ [item], next, h.snoc hnil hcell, ?_, ?_⟩
      · exact List.nodup_append.mpr ⟨hcells, List.nodup_singleton last, fun cell hc _ hl heq =>
          hmem (List.mem_singleton.mp hl ▸ heq ▸ hc)⟩
      · rw [List.length_append, hlength, List.length_singleton]
    · exact .inl ⟨cells, found, last, _, h, hcells, .malformed hnil hcell⟩

/-- The graph is finite, so from any node a chain of distinct cells comes to an end. -/
theorem exists_ends (g : Graph) (head : Term) : ∃ cells found last result,
    Chain g head cells found last ∧ cells.Nodup ∧ Ends g cells found last result := by
  rcases ends_or_long g head ((triples g).length + 1) with hends | ⟨_, _, _, h, hcells, hlength⟩
  · exact hends
  · have hle := h.length_le hcells
    omega

theorem items_eq_iff {head : Term} {result : Except Fault (List Term)} : items g head = result ↔
    ∃ cells found last, Chain g head cells found last ∧ cells.Nodup ∧
      Ends g cells found last result := by
  have hread : ∀ {cells found last result}, Chain g head cells found last → cells.Nodup →
      Ends g cells found last result → items g head = result := by
    intro cells found last result h hcells hends
    have hle := h.length_le hcells
    exact follow_eq_of_ends h hcells hends (by omega)
  constructor
  · rintro rfl
    obtain ⟨cells, found, last, result, h, hcells, hends⟩ := exists_ends g head
    rw [hread h hcells hends]
    exact ⟨cells, found, last, h, hcells, hends⟩
  · rintro ⟨cells, found, last, h, hcells, hends⟩
    exact hread h hcells hends

/-- More fuel changes nothing. -/
theorem follow_eq_items (g : Graph) (head : Term) (more : Nat) :
    follow g ((triples g).length + 2 + more) [] head = items g head := by
  obtain ⟨cells, found, last, h, hcells, hends⟩ := items_eq_iff.mp (Eq.refl (items g head))
  have hle := h.length_le hcells
  exact follow_eq_of_ends h hcells hends (by omega)

/-- **Reading a collection is exact.** Following comes to an end within as many steps as the graph
has triples and two more. It finds the items of distinct cells from the head to `rdf:nil`; or the
first cell that the chain comes back to; or the first node in the place of a cell that is none. -/
theorem items_exact (g : Graph) (head : Term) :
    (∀ more, follow g ((triples g).length + 2 + more) [] head = items g head) ∧
      (∀ found, items g head = .ok found ↔
        ∃ cells, cells.Nodup ∧ Chain g head cells found (.iri Rdf.nil)) ∧
      (∀ node, items g head = .error (.cyclic node) ↔
        ∃ cells found, cells.Nodup ∧ Chain g head cells found node ∧ node ∈ cells) ∧
      ∀ node, items g head = .error (.malformed node) ↔
        ∃ cells found, cells.Nodup ∧ Chain g head cells found node ∧ node ≠ .iri Rdf.nil ∧
          ¬ ∃ item next, IsCell g node item next := by
  refine ⟨follow_eq_items g head, fun found => items_eq_iff.trans ?_,
    fun node => items_eq_iff.trans ?_, fun node => items_eq_iff.trans ?_⟩
  · constructor
    · rintro ⟨cells, found, last, h, hcells, hends⟩
      cases hends with
      | closed hlast => exact ⟨cells, hcells, hlast ▸ h⟩
    · rintro ⟨cells, hcells, h⟩
      exact ⟨cells, found, _, h, hcells, .closed rfl⟩
  · constructor
    · rintro ⟨cells, found, last, h, hcells, hends⟩
      cases hends with
      | cyclic hmem => exact ⟨cells, found, hcells, h, hmem⟩
    · rintro ⟨cells, found, hcells, h, hmem⟩
      exact ⟨cells, found, _, h, hcells, .cyclic hmem⟩
  · constructor
    · rintro ⟨cells, found, last, h, hcells, hends⟩
      cases hends with
      | malformed hlast hnone => exact ⟨cells, found, hcells, h, hlast, hnone⟩
    · rintro ⟨cells, found, hcells, h, hlast, hnone⟩
      exact ⟨cells, found, _, h, hcells, .malformed hlast hnone⟩

/-- A chain that comes back into its middle. -/
example : items (Graph.ofList
    [⟨.blank "a", .iri Rdf.first, .iri "x"⟩, ⟨.blank "a", .iri Rdf.rest, .blank "b"⟩,
      ⟨.blank "b", .iri Rdf.first, .iri "y"⟩, ⟨.blank "b", .iri Rdf.rest, .blank "c"⟩,
      ⟨.blank "c", .iri Rdf.first, .iri "x"⟩, ⟨.blank "c", .iri Rdf.rest, .blank "b"⟩])
    (.blank "a") = .error (.cyclic (.blank "b")) := by
  rfl

end HornReasoner.Collection
