import HornReasoner.Proofs.Rdf.Collection
import HornReasoner.Proofs.Rdf.Edits

/-! Repeated triples.

A list of triples answers with a triple as often as it has it, the graph of the list once. Both
hold the same triples, but who looks for the only object counts them, and takes one that is there
twice for two. So a collection is read from the list as from the graph if no cell on its way has a
repeated triple, and as malformed at the first one that does. -/
namespace HornReasoner

open TripleSource Vocabulary

variable {ts : List Triple} {node o : Term} {predicate : String}

/-- Some triple about the node with the predicate is on the list more than once. -/
def Repeated (ts : List Triple) (node : Term) (predicate : String) : Prop :=
  ∃ o, 1 < ts.count ⟨node, .iri predicate, o⟩

/-! ### Objects -/

theorem count_objects (ts : List Triple) (node predicate o : Term) :
    (objects ts node predicate).count o = ts.count ⟨node, predicate, o⟩ := by
  show ((ts.filter _).map Triple.object).count o = _
  rw [List.count_eq_countP, List.count_eq_countP, List.countP_map, List.countP_filter]
  refine List.countP_congr fun t _ => ?_
  rw [Bool.and_eq_true, Query.holds_about, Function.comp_apply, beq_iff_eq, beq_iff_eq]
  constructor
  · rintro ⟨rfl, rfl, rfl⟩
    rfl
  · rintro rfl
    exact ⟨rfl, rfl, rfl⟩

theorem repeated_iff : Repeated ts node predicate ↔ ¬ (objects ts node (.iri predicate)).Nodup := by
  rw [List.nodup_iff_count_le_one]
  simp only [Repeated, count_objects, not_forall, Nat.not_le]

theorem mem_objects_ofList : o ∈ objects (Graph.ofList ts) node (.iri predicate) ↔
    o ∈ objects ts node (.iri predicate) := by
  rw [Graph.mem_objects, Graph.toList_ofList, List.mem_eraseDups, ← List.count_pos_iff,
    ← List.count_pos_iff, count_objects]

/-- Without repetition list and graph have the same objects. -/
theorem objects_perm_ofList (h : ¬ Repeated ts node predicate) :
    (objects ts node (.iri predicate)).Perm (objects (Graph.ofList ts) node (.iri predicate)) :=
  (List.perm_ext_iff_of_nodup (not_not.mp fun hdup => h (repeated_iff.mpr hdup))
    (Graph.nodup_objects _ _ _)).mpr fun _ => mem_objects_ofList.symm

theorem objects_subperm_ofList (ts : List Triple) (node : Term) (predicate : String) :
    (objects (Graph.ofList ts) node (.iri predicate)).Subperm
      (objects ts node (.iri predicate)) :=
  List.subperm_of_subset (Graph.nodup_objects _ _ _) fun _ => mem_objects_ofList.mp

/-- With it the list counts more. -/
theorem length_objects_ofList_lt (h : Repeated ts node predicate) :
    (objects (Graph.ofList ts) node (.iri predicate)).length <
      (objects ts node (.iri predicate)).length := by
  have hsub := objects_subperm_ofList ts node predicate
  refine Nat.lt_of_le_of_ne hsub.length_le fun hlength => repeated_iff.mp h ?_
  exact (hsub.perm_of_length_le (Nat.le_of_eq hlength.symm)).nodup (Graph.nodup_objects _ _ _)

theorem value_of_repeated (h : Repeated ts node predicate) :
    value ts node (.iri predicate) = none := by
  obtain ⟨_, _, _, hobjects⟩ := exists_cons_cons_of_not_nodup (repeated_iff.mp h)
  rw [value, hobjects]

theorem value_ofList (h : ¬ Repeated ts node predicate) :
    value ts node (.iri predicate) = value (Graph.ofList ts) node (.iri predicate) :=
  value_eq_of_perm (objects_perm_ofList h)

theorem length_triples_ofList_le (ts : List Triple) :
    (triples (Graph.ofList ts)).length ≤ (triples ts).length := by
  have hsub : (Graph.ofList ts).toList ⊆ triples ts := fun t ht => by
    rw [Graph.toList_ofList, List.mem_eraseDups] at ht
    exact List.mem_filter.mpr ⟨ht, rfl⟩
  rw [Graph.triples_eq]
  exact (List.subperm_of_subset (Graph.ofList ts).nodup hsub).length_le

namespace Collection

variable {head cell item next last : Term} {cells found visited : List Term}

/-- One of the cell's triples is on the list more than once. -/
def CellRepeated (ts : List Triple) (cell : Term) : Prop :=
  Repeated ts cell Rdf.first ∨ Repeated ts cell Rdf.rest

theorem follow_of_cellRepeated (h : CellRepeated ts node) (hnil : node ≠ .iri Rdf.nil)
    (hnew : node ∉ visited) (fuel : Nat) :
    follow ts (fuel + 1) visited node = .error (.malformed node) := by
  refine follow_of_no_values hnil hnew (fun ⟨item, next, hfirst, hrest⟩ => ?_) fuel
  rcases h with h | h
  · exact absurd (hfirst.symm.trans (value_of_repeated h)) (Option.some_ne_none item)
  · exact absurd (hrest.symm.trans (value_of_repeated h)) (Option.some_ne_none next)

theorem follow_of_not_cellRepeated (h : ¬ CellRepeated ts node)
    (hcell : IsCell (Graph.ofList ts) node item next) (hnil : node ≠ .iri Rdf.nil)
    (hnew : node ∉ visited) (fuel : Nat) :
    follow ts (fuel + 1) visited node =
      (follow ts fuel (node :: visited) next).map (item :: ·) := by
  obtain ⟨hfirst, hrest⟩ := not_or.mp h
  obtain ⟨hitem, hnext⟩ := isCell_iff.mp hcell
  exact follow_of_values hnil hnew ((value_ofList hfirst).trans hitem)
    ((value_ofList hrest).trans hnext) fuel

/-- What is no cell of the graph is none of the list. -/
theorem follow_of_not_isCell (hnone : ¬ ∃ item next, IsCell (Graph.ofList ts) node item next)
    (hnil : node ≠ .iri Rdf.nil) (hnew : node ∉ visited) (fuel : Nat) :
    follow ts (fuel + 1) visited node = .error (.malformed node) := by
  by_cases h : CellRepeated ts node
  · exact follow_of_cellRepeated h hnil hnew fuel
  obtain ⟨hfirst, hrest⟩ := not_or.mp h
  refine follow_of_no_values hnil hnew ?_ fuel
  rw [value_ofList hfirst, value_ofList hrest]
  exact mt exists_isCell_iff.mpr hnone

/-! ### Following -/

/-- Where a chain has a cell with a repeated triple, the list ends at a cell. -/
theorem follow_of_chain (h : Chain (Graph.ofList ts) node cells found last) (hcells : cells.Nodup)
    (hnew : ∀ cell ∈ cells, cell ∉ visited) (hrepeated : ∃ cell ∈ cells, CellRepeated ts cell)
    {fuel : Nat} (hfuel : cells.length < fuel) :
    ∃ cell ∈ cells, follow ts fuel visited node = .error (.malformed cell) := by
  induction h generalizing visited fuel with
  | nil node => exact absurd hrepeated (by simp)
  | @cons node item next last cells found hnode hcell _ ih =>
    obtain ⟨fuel, rfl⟩ : ∃ k, fuel = k + 1 := ⟨fuel - 1, by omega⟩
    obtain ⟨hnotin, hcells⟩ := List.nodup_cons.mp hcells
    obtain ⟨hunseen, hnew⟩ := List.forall_mem_cons.mp hnew
    by_cases hhere : CellRepeated ts node
    · exact ⟨node, List.mem_cons_self, follow_of_cellRepeated hhere hnode hunseen fuel⟩
    have hlater : ∃ cell ∈ cells, CellRepeated ts cell := by
      obtain ⟨cell, hmem, hlater⟩ := hrepeated
      rcases List.mem_cons.mp hmem with rfl | hmem
      · exact absurd hlater hhere
      · exact ⟨cell, hmem, hlater⟩
    obtain ⟨cell, hmem, hfollow⟩ :=
      ih hcells (forall_not_mem_cons hnotin hnew) hlater (Nat.lt_of_succ_lt_succ hfuel)
    refine ⟨cell, List.mem_cons_of_mem node hmem, ?_⟩
    rw [follow_of_not_cellRepeated hhere hcell hnode hunseen, hfollow]
    rfl

/-- The list gives what the graph gives, or ends at a cell with a repeated triple. -/
theorem follow_ofList (ts : List Triple) (fuel : Nat) (visited : List Term) (node : Term) :
    follow ts fuel visited node = follow (Graph.ofList ts) fuel visited node ∨
      ∃ cells found last, Chain (Graph.ofList ts) node cells found last ∧ cells.Nodup ∧
        (∀ cell ∈ cells, cell ∉ visited) ∧ ∃ cell ∈ cells, CellRepeated ts cell ∧
          follow ts fuel visited node = .error (.malformed cell) := by
  induction fuel generalizing visited node with
  | zero => exact .inl rfl
  | succ fuel ih =>
    by_cases hnil : node = .iri Rdf.nil
    · exact .inl (by rw [follow, follow, if_pos hnil, if_pos hnil])
    by_cases hvisited : node ∈ visited
    · refine .inl ?_
      rw [follow, follow, if_neg hnil, if_neg hnil, if_pos hvisited, if_pos hvisited]
    by_cases hcell : ∃ item next, IsCell (Graph.ofList ts) node item next
    · obtain ⟨item, next, hcell⟩ := hcell
      by_cases hrepeated : CellRepeated ts node
      · exact .inr ⟨[node], [item], next, .cons hnil hcell (.nil next), List.nodup_singleton node,
          List.forall_mem_singleton.mpr hvisited, node, List.mem_singleton_self node, hrepeated,
          follow_of_cellRepeated hrepeated hnil hvisited fuel⟩
      obtain ⟨hfirst, hrest⟩ := isCell_iff.mp hcell
      rw [follow_of_not_cellRepeated hrepeated hcell hnil hvisited,
        follow_of_values hnil hvisited hfirst hrest]
      rcases ih (node :: visited) next with heq | ⟨cells, found, last, h, hcells, hnew, hfault⟩
      · exact .inl (congrArg _ heq)
      obtain ⟨hnode, hnew⟩ : node ∉ cells ∧ ∀ cell ∈ cells, cell ∉ visited :=
        ⟨fun hmem => hnew node hmem List.mem_cons_self,
          fun cell hmem hseen => hnew cell hmem (List.mem_cons_of_mem node hseen)⟩
      obtain ⟨cell, hmem, hrepeated, hfollow⟩ := hfault
      refine .inr ⟨_, _, _, .cons hnil hcell h, List.nodup_cons.mpr ⟨hnode, hcells⟩,
        List.forall_mem_cons.mpr ⟨hvisited, hnew⟩, cell, List.mem_cons_of_mem node hmem, hrepeated,
        ?_⟩
      rw [hfollow]
      rfl
    · rw [follow_of_not_isCell hcell hnil hvisited,
        follow_of_no_values hnil hvisited (mt exists_isCell_iff.mpr hcell)]
      exact .inl rfl

/-! ### Collections -/

theorem follow_ofList_eq_items (ts : List Triple) (head : Term) :
    follow (Graph.ofList ts) ((triples ts).length + 2) [] head = items (Graph.ofList ts) head := by
  have hle := length_triples_ofList_le ts
  rw [← follow_eq_items (Graph.ofList ts) head
    ((triples ts).length - (triples (Graph.ofList ts)).length)]
  congr 1
  omega

/-- A graph never finds a cell malformed. -/
theorem items_ne_malformed {g : Graph} (hcell : IsCell g cell item next) :
    items g head ≠ .error (.malformed cell) := by
  intro h
  obtain ⟨cells, found, last, -, -, hends⟩ := items_eq_iff.mp h
  cases hends with
  | malformed _ hnone => exact hnone ⟨item, next, hcell⟩

/-- A list finds the items that its graph has, or takes a cell of it for malformed. -/
theorem items_ofList (ts : List Triple) (head : Term) :
    items ts head = items (Graph.ofList ts) head ∨
      ∃ cell, (∃ item next, IsCell (Graph.ofList ts) cell item next) ∧ CellRepeated ts cell ∧
        items ts head = .error (.malformed cell) := by
  rcases follow_ofList ts ((triples ts).length + 2) [] head with
    heq | ⟨cells, found, last, h, -, -, cell, hmem, hrepeated, hfollow⟩
  · exact .inl (heq.trans (follow_ofList_eq_items ts head))
  · exact .inr ⟨cell, h.isCell_of_mem cell hmem, hrepeated, hfollow⟩

/-- **A list finds the items that its graph has just if no cell on the way has a repeated
triple.** -/
theorem items_ofList_iff (ts : List Triple) (head : Term) :
    items ts head = items (Graph.ofList ts) head ↔
      ∀ cells found last, Chain (Graph.ofList ts) head cells found last → cells.Nodup →
        ∀ cell ∈ cells, ¬ CellRepeated ts cell := by
  constructor
  · intro heq cells found last h hcells cell hmem hrepeated
    have hlength := h.length_le hcells
    have hle := length_triples_ofList_le ts
    obtain ⟨bad, hbad, hfollow⟩ := follow_of_chain h hcells
      (fun _ _ => List.not_mem_nil) ⟨cell, hmem, hrepeated⟩
      (show cells.length < (triples ts).length + 2 by omega)
    obtain ⟨item, next, hcell⟩ := h.isCell_of_mem bad hbad
    exact items_ne_malformed hcell (heq.symm.trans hfollow)
  · intro hnone
    rcases follow_ofList ts ((triples ts).length + 2) [] head with
      heq | ⟨cells, found, last, h, hcells, -, cell, hmem, hrepeated, -⟩
    · exact heq.trans (follow_ofList_eq_items ts head)
    · exact absurd hrepeated (hnone cells found last h hcells cell hmem)

end Collection

end HornReasoner
