import HornReasoner.Proofs.Ontology.Calls
import HornReasoner.Proofs.Rdf.Repeated
import Mathlib.Algebra.Order.BigOperators.Group.List

/-! Descriptions with repeated triples.

Where one object is meant the reader counts those it is given, and its error says how many there
are. A graph gives each of them once; a list with a triple twice gives one of them twice. So over
the list the reader does what it does over the list's graph up to the first object that it counts
twice (`Tells`), and the two answers differ just if that is what the list's answer says
(`readClass_ofList_iff`). -/
namespace HornReasoner.Ontology

open TripleSource Vocabulary

/-- The predicates whose objects are counted. -/
def countedPredicates : List String :=
  [Rdf.first, Rdf.rest, Owl.intersectionOf, Owl.unionOf, Owl.complementOf, Owl.oneOf,
    Owl.onProperty, Owl.inverseOf] ++ fillerPredicates

/-- The error is about a node with a repeated triple, and counts it as often as the list has it. -/
def CountsTwice (ts : List Triple) : OntologyError → Prop
  | .manyValues node count predicate => predicate ∈ countedPredicates ∧
      Repeated ts node predicate ∧ count = (objects ts node (.iri predicate)).length
  | .manyFillers node predicates => (∃ predicate ∈ fillerPredicates, Repeated ts node predicate) ∧
      predicates = (fillersOf ts node).map Prod.fst
  | .collection (.malformed cell) => Collection.CellRepeated ts cell ∧
      ∃ item next, Collection.IsCell (Graph.ofList ts) cell item next
  | _ => False

/-- Over the list the action does what it does over the graph, or counts a triple twice. Over the
graph it counts none twice, and leaves the terms being read as they are. -/
structure Tells {α : Type} (ts : List Triple) (terms : List Term) (act act' : Reading α) :
    Prop where
  same_or : act terms = act' terms ∨ ∃ e, CountsTwice ts e ∧ act terms = (.error e, terms)
  keeps : (act' terms).2 = terms
  counts : ∀ e, (act' terms).1 = .error e → ¬ CountsTwice ts e

variable {ts : List Triple} {terms : List Term} {node : Term}

/-! ### Actions -/

namespace Tells
variable {α β : Type} {act act' : Reading α}

theorem pure (a : α) : Tells ts terms (Pure.pure a) (Pure.pure a) where
  same_or := .inl rfl
  keeps := rfl
  counts _ h := by cases h

theorem throw {e : OntologyError} (he : ¬ CountsTwice ts e) :
    Tells (α := α) ts terms (MonadExcept.throw e) (MonadExcept.throw e) where
  same_or := .inl rfl
  keeps := rfl
  counts _ h := Except.error.inj h ▸ he

theorem of_countsTwice (h : Tells ts terms act' act') {e : OntologyError} (he : CountsTwice ts e)
    (hact : act terms = (.error e, terms)) : Tells ts terms act act' :=
  ⟨.inr ⟨e, he, hact⟩, h.keeps, h.counts⟩

theorem right (h : Tells ts terms act act') : Tells ts terms act' act' :=
  ⟨.inl rfl, h.keeps, h.counts⟩

theorem bind {f f' : α → Reading β} (h : Tells ts terms act act')
    (hf : ∀ a, Tells ts terms (f a) (f' a)) : Tells ts terms (act >>= f) (act' >>= f') := by
  obtain ⟨hsame, hkeeps, hcounts⟩ := h
  cases hact' : act' terms with
  | mk result next =>
  rw [hact'] at hsame hkeeps hcounts
  obtain rfl : next = terms := hkeeps
  have htwice : ∀ e, CountsTwice ts e → act next = (.error e, next) →
      ∃ e, CountsTwice ts e ∧ (act >>= f) next = (.error e, next) :=
    fun e he hact => ⟨e, he, bind_of_error hact⟩
  cases result with
  | error e =>
    have hbind : (act' >>= f') next = (.error e, next) := bind_of_error hact'
    refine ⟨?_, congrArg Prod.snd hbind, fun e' he' => hcounts e' ?_⟩
    · rw [hbind]
      exact hsame.imp bind_of_error fun ⟨e, he, hact⟩ => htwice e he hact
    · rw [hbind] at he'
      exact congrArg Except.error (Except.error.inj he')
  | ok a =>
    obtain ⟨hsame', hkeeps', hcounts'⟩ := hf a
    have hbind : (act' >>= f') next = f' a next := bind_of_ok hact'
    refine ⟨?_, hbind ▸ hkeeps', hbind ▸ hcounts'⟩
    rw [hbind]
    rcases hsame with hact | ⟨e, he, hact⟩
    · rw [bind_of_ok hact]
      exact hsame'
    · exact .inr (htwice e he hact)

theorem mapM {read read' : α → Reading β} (h : ∀ a, Tells ts terms (read a) (read' a))
    (as : List α) : Tells ts terms (as.mapM read) (as.mapM read') := by
  induction as with
  | nil =>
    rw [List.mapM_nil, List.mapM_nil]
    exact .pure _
  | cons a rest ih =>
    rw [List.mapM_cons, List.mapM_cons]
    exact (h a).bind fun b => ih.bind fun bs => .pure _

theorem visiting {t : Term} {describe describe' : Reading α}
    (h : t ∉ terms → Tells ts (t :: terms) describe describe') :
    Tells ts terms (Ontology.visiting t describe) (Ontology.visiting t describe') := by
  by_cases ht : t ∈ terms
  · have hcyclic : ∀ describe : Reading α,
        Ontology.visiting t describe terms = (.error (.cyclic t), terms) := fun _ => if_pos ht
    refine ⟨.inl ((hcyclic describe).trans (hcyclic describe').symm), ?_, fun e he => ?_⟩
    · rw [hcyclic]
    · rw [hcyclic] at he
      exact Except.error.inj he ▸ id
  · have hdescribe : ∀ describe : Reading α, Ontology.visiting t describe terms =
        ((describe (t :: terms)).1, (describe (t :: terms)).2.erase t) := fun _ => if_neg ht
    obtain ⟨hsame, hkeeps, hcounts⟩ := h ht
    refine ⟨?_, ?_, fun e he => hcounts e ?_⟩
    · rw [hdescribe, hdescribe]
      rcases hsame with hact | ⟨e, he, hact⟩
      · exact .inl (by rw [hact])
      · exact .inr ⟨e, he, by rw [hact, List.erase_cons_head]⟩
    · rw [hdescribe, hkeeps, List.erase_cons_head]
    · rw [hdescribe] at he
      exact he

end Tells

/-! ### Lookups -/

theorem tells_single {predicate : String} (hp : predicate ∈ countedPredicates) (node : Term) :
    Tells ts terms (single ts node predicate) (single (Graph.ofList ts) node predicate) := by
  have hgraph : Tells ts terms (single (Graph.ofList ts) node predicate)
      (single (Graph.ofList ts) node predicate) := by
    unfold single
    split
    · exact .pure none
    · exact .pure (some _)
    · refine .throw fun ⟨_, h, hcount⟩ => ?_
      have hlt := length_objects_ofList_lt h
      omega
  by_cases h : Repeated ts node predicate
  · obtain ⟨o, o', rest, hmany⟩ := exists_cons_cons_of_not_nodup (repeated_iff.mp h)
    refine hgraph.of_countsTwice (e := .manyValues node _ predicate) ⟨hp, h, rfl⟩ ?_
    simp only [single, hmany]
    rfl
  · rw [single_congr (objects_perm_ofList h)]
    exact hgraph

theorem tells_items (head : Term) :
    Tells ts terms (items ts head) (items (Graph.ofList ts) head) := by
  have hgraph : Tells ts terms (items (Graph.ofList ts) head) (items (Graph.ofList ts) head) := by
    unfold items
    split
    · exact .pure _
    · rename_i fault hfault
      cases fault with
      | cyclic cell => exact .throw id
      | malformed cell =>
        exact .throw fun ⟨_, _, _, hcell⟩ => Collection.items_ne_malformed hcell hfault
  rcases Collection.items_ofList ts head with heq | ⟨cell, hcell, hrepeated, hitems⟩
  · rw [items, heq]
    exact hgraph
  · refine hgraph.of_countsTwice (e := .collection (.malformed cell)) ⟨hrepeated, hcell⟩ ?_
    rw [items, hitems]
    rfl

theorem contains_ofList (ts : List Triple) (t : Triple) :
    contains ts t = contains (Graph.ofList ts) t := by
  show ts.contains t = (Graph.ofList ts).contains t
  rw [Bool.eq_iff_iff, List.contains_iff_mem, Graph.contains_iff, Graph.toList_ofList,
    List.mem_eraseDups]

/-! ### Restrictions -/

theorem length_fillersOf_ofList_lt {predicate : String} (hp : predicate ∈ fillerPredicates)
    (h : Repeated ts node predicate) :
    (fillersOf (Graph.ofList ts) node).length < (fillersOf ts node).length := by
  rw [fillersOf, fillersOf, List.length_flatMap, List.length_flatMap]
  simp only [List.length_map]
  exact List.sum_lt_sum _ _ (fun other _ => (objects_subperm_ofList ts node other).length_le)
    ⟨predicate, hp, length_objects_ofList_lt h⟩

theorem not_nodup_fillersOf {predicate : String} (hp : predicate ∈ fillerPredicates)
    (h : Repeated ts node predicate) : ¬ (fillersOf ts node).Nodup := fun hnodup =>
  repeated_iff.mp h ((List.nodup_flatMap.mp hnodup).1 predicate hp).of_map

section Restriction
variable {read read' : Term → Reading ClassExpr}

theorem tells_restrictionOf (hread : ∀ t, Tells ts terms (read t) (read' t))
    (property : PropertyExpr) (predicate : String) (filler : Term) :
    Tells ts terms (restrictionOf read property predicate filler)
      (restrictionOf read' property predicate filler) := by
  unfold restrictionOf
  repeat' split
  · exact (hread filler).bind fun _ => .pure _
  · exact (hread filler).bind fun _ => .pure _
  all_goals exact .pure _

theorem tells_restriction (hread : ∀ t, Tells ts terms (read t) (read' t)) (node : Term)
    (property : PropertyExpr) : Tells ts terms (restriction ts read node property)
      (restriction (Graph.ofList ts) read' node property) := by
  have hgraph : Tells ts terms (restriction (Graph.ofList ts) read node property)
      (restriction (Graph.ofList ts) read' node property) := by
    rw [restriction_eq, restriction_eq]
    split
    · exact .throw id
    · exact tells_restrictionOf hread property _ _
    · refine .throw fun ⟨⟨predicate, hp, h⟩, hkinds⟩ => ?_
      have hlength := congrArg List.length hkinds
      rw [List.length_map, List.length_map] at hlength
      have hlt := length_fillersOf_ofList_lt hp h
      omega
  by_cases h : ∃ predicate ∈ fillerPredicates, Repeated ts node predicate
  · obtain ⟨predicate, hp, hrepeated⟩ := h
    obtain ⟨e, e', rest, hmany⟩ := exists_cons_cons_of_not_nodup (not_nodup_fillersOf hp hrepeated)
    refine hgraph.right.of_countsTwice (e := .manyFillers node _) ⟨⟨predicate, hp, hrepeated⟩, rfl⟩
      ?_
    rw [restriction_eq, hmany]
    rfl
  · push Not at h
    rw [restriction_congr fun predicate hp => objects_perm_ofList (h predicate hp)]
    exact hgraph

/-! ### Descriptions -/

theorem tells_anonymous {readProperty readProperty' : Term → Reading PropertyExpr}
    (hreadProperty : ∀ t, Tells ts terms (readProperty t) (readProperty' t))
    (hread : ∀ t, Tells ts terms (read t) (read' t)) (node : Term) :
    Tells ts terms (anonymous ts readProperty read node)
      (anonymous (Graph.ofList ts) readProperty' read' node) := by
  unfold anonymous
  refine (tells_single (by decide) node).bind fun list? => ?_
  cases list? with
  | some list =>
    exact (tells_items list).bind fun members => (Tells.mapM hread members).bind fun _ => .pure _
  | none =>
  refine (tells_single (by decide) node).bind fun list? => ?_
  cases list? with
  | some list =>
    exact (tells_items list).bind fun members => (Tells.mapM hread members).bind fun _ => .pure _
  | none =>
  refine (tells_single (by decide) node).bind fun inner? => ?_
  cases inner? with
  | some inner => exact (hread inner).bind fun _ => .pure _
  | none =>
  refine (tells_single (by decide) node).bind fun list? => ?_
  cases list? with
  | some list => exact (tells_items list).bind fun _ => .pure _
  | none =>
  refine (tells_single (by decide) node).bind fun property? => ?_
  cases property? with
  | some property => exact (hreadProperty property).bind (tells_restriction hread node)
  | none =>
    dsimp only
    rw [contains_ofList]
    split
    · exact .throw id
    · exact .pure _

end Restriction

theorem tells_propertyStep {read read' : Term → Reading PropertyExpr}
    (hread : ∀ terms t, Tells ts terms (read t) (read' t)) (t : Term) :
    Tells ts terms (propertyStep ts read t) (propertyStep (Graph.ofList ts) read' t) := by
  rw [propertyStep, propertyStep]
  split
  · exact .pure _
  · refine .visiting fun _ => (tells_single (by decide) t).bind fun inner? => ?_
    cases inner? with
    | none => exact .pure _
    | some inner => exact (hread _ inner).bind fun _ => .pure _

theorem tells_classStep {readProperty readProperty' : Term → Reading PropertyExpr}
    {read read' : Term → Reading ClassExpr}
    (hreadProperty : ∀ terms t, Tells ts terms (readProperty t) (readProperty' t))
    (hread : ∀ terms t, Tells ts terms (read t) (read' t)) (t : Term) :
    Tells ts terms (classStep ts readProperty read t)
      (classStep (Graph.ofList ts) readProperty' read' t) := by
  cases t with
  | iri s =>
    rw [classStep, classStep]
    repeat' split
    all_goals exact .pure _
  | literal _ | blank _ | var _ =>
    simp only [classStep]
    exact .visiting fun _ => tells_anonymous (hreadProperty _) (hread _) _

/-! ### Calls -/

/-- Calls nested equally deep, with a call beyond the fuel at the end of both. -/
theorem tells_iterate {α : Type} {step step' : (Term → Reading α) → Term → Reading α}
    (hstep : ∀ read read', (∀ terms t, Tells ts terms (read t) (read' t)) →
      ∀ terms t, Tells ts terms (step read t) (step' read' t)) (fuel : Nat) :
    ∀ terms t, Tells ts terms (step^[fuel] (fun t => throw (.cyclic t)) t)
      (step'^[fuel] (fun t => throw (.cyclic t)) t) := by
  induction fuel with
  | zero => exact fun _ _ => .throw id
  | succ fuel ih =>
    rw [Function.iterate_succ_apply', Function.iterate_succ_apply']
    exact hstep _ _ ih

/-- The list gives the reader at least as much fuel as the graph needs. -/
theorem depth_ofList_add (ts : List Triple) :
    depth (Graph.ofList ts) + (depth ts - depth (Graph.ofList ts)) = depth ts := by
  have hle := length_triples_ofList_le ts
  unfold depth
  omega

theorem tells_readProperty (t : Term) :
    Tells ts terms (readProperty ts t) (readProperty (Graph.ofList ts) t) := by
  show Tells ts terms (propertyFrom ts (depth ts) t) _
  rw [propertyFrom_eq_iterate, ← depth_ofList_add ts,
    ← readProperty_eq_iterate (Graph.ofList ts) (depth ts - depth (Graph.ofList ts))]
  exact tells_iterate (fun _ _ hread _ => tells_propertyStep hread) _ terms t

theorem tells_readClass (t : Term) :
    Tells ts terms (readClass ts t) (readClass (Graph.ofList ts) t) := by
  show Tells ts terms (classFrom ts (readProperty ts) (depth ts) t) _
  rw [classFrom_eq_iterate, ← depth_ofList_add ts,
    ← readClass_eq_iterate (Graph.ofList ts) (depth ts - depth (Graph.ofList ts))]
  exact tells_iterate (fun _ _ hread _ => tells_classStep (fun _ => tells_readProperty) hread) _
    terms t

/-- Over the list a call counts a triple twice just where it does not do what it does over the
graph. -/
theorem readClass_ofList_iff (t : Term) :
    readClass ts t terms = readClass (Graph.ofList ts) t terms ↔
      ∀ e, (readClass ts t terms).1 = .error e → ¬ CountsTwice ts e := by
  obtain ⟨hsame, -, hcounts⟩ := @tells_readClass ts terms t
  constructor
  · intro heq
    rw [heq]
    exact hcounts
  · intro hnone
    rcases hsame with heq | ⟨e, he, hread⟩
    · exact heq
    · exact absurd he (hnone e (congrArg Prod.fst hread))

/-! ### Lists without repetition -/

section Once
variable (h : ∀ t ∈ ts, t.predicate ∈ countedPredicates.map Term.iri → ts.count t = 1)
include h

theorem not_repeated_of_once {predicate : String} (hp : predicate ∈ countedPredicates)
    (node : Term) : ¬ Repeated ts node predicate := by
  rintro ⟨o, hlt⟩
  have hmem := List.count_pos_iff.mp (Nat.zero_lt_of_lt hlt)
  have hone := h _ hmem (List.mem_map_of_mem hp)
  omega

theorem not_cellRepeated_of_once (cell : Term) : ¬ Collection.CellRepeated ts cell :=
  not_or.mpr ⟨not_repeated_of_once h (by decide) cell, not_repeated_of_once h (by decide) cell⟩

theorem not_countsTwice_of_once (e : OntologyError) : ¬ CountsTwice ts e := by
  cases e with
  | manyValues node count predicate =>
    exact fun ⟨hp, hrepeated, _⟩ => not_repeated_of_once h hp node hrepeated
  | manyFillers node predicates =>
    exact fun ⟨⟨_, hp, hrepeated⟩, _⟩ =>
      not_repeated_of_once h (List.mem_append_right _ hp) node hrepeated
  | collection fault =>
    cases fault with
    | malformed cell => exact fun ⟨hrepeated, _⟩ => not_cellRepeated_of_once h cell hrepeated
    | cyclic cell => exact id
  | _ => exact id

end Once

/-- **A list is read as its graph up to what it counts twice.** A collection has the graph's items
just if no cell on its way has a repeated triple. A class is what it is over the graph just if its
error does not count a repeated triple. So only triples whose objects are counted matter: if each
of them is there once, whatever else is repeated, list and graph are read alike. -/
theorem repetition_exact (ts : List Triple) :
    (∀ head, Collection.items ts head = Collection.items (Graph.ofList ts) head ↔
        ∀ cells found last, Collection.Chain (Graph.ofList ts) head cells found last →
          cells.Nodup → ∀ cell ∈ cells, ¬ Collection.CellRepeated ts cell) ∧
      (∀ terms t, readClass ts t terms = readClass (Graph.ofList ts) t terms ↔
        ∀ e, (readClass ts t terms).1 = .error e → ¬ CountsTwice ts e) ∧
      ((∀ t ∈ ts, t.predicate ∈ countedPredicates.map Term.iri → ts.count t = 1) →
        (∀ head, Collection.items ts head = Collection.items (Graph.ofList ts) head) ∧
          ∀ terms t, readClass ts t terms = readClass (Graph.ofList ts) t terms) := by
  refine ⟨Collection.items_ofList_iff ts, fun _ => readClass_ofList_iff, fun h => ⟨?_, ?_⟩⟩
  · intro head
    exact (Collection.items_ofList_iff ts head).mpr fun _ _ _ _ _ cell _ =>
      not_cellRepeated_of_once h cell
  · intro terms t
    exact (readClass_ofList_iff t).mpr fun e _ => not_countsTwice_of_once h e

/-- A restriction that is typed twice, of the classes in a collection. -/
def typedTwice : List Triple :=
  [⟨.blank "r", .iri Rdf.type, .iri Owl.restriction⟩,
    ⟨.blank "r", .iri Owl.onProperty, .iri "p"⟩, ⟨.blank "r", .iri Owl.allValuesFrom, .blank "u"⟩,
    ⟨.blank "r", .iri Rdf.type, .iri Owl.restriction⟩,
    ⟨.blank "u", .iri Owl.unionOf, .blank "l"⟩, ⟨.blank "l", .iri Rdf.first, .iri "A"⟩,
    ⟨.blank "l", .iri Rdf.rest, .iri Rdf.nil⟩]

theorem repetition_exact_of_typedTwice :
    ((∀ t ∈ typedTwice, t.predicate ∈ countedPredicates.map Term.iri → typedTwice.count t = 1) ∧
      ¬ typedTwice.Nodup) ∧
      Collection.items typedTwice (.blank "l") =
        Collection.items (Graph.ofList typedTwice) (.blank "l") ∧
      readClass typedTwice (.blank "r") [] =
        readClass (Graph.ofList typedTwice) (.blank "r") [] := by
  have hone : ∀ t ∈ typedTwice,
      t.predicate ∈ countedPredicates.map Term.iri → typedTwice.count t = 1 := by
    decide +kernel
  obtain ⟨hitems, hread⟩ := (repetition_exact typedTwice).2.2 hone
  exact ⟨⟨hone, by decide +kernel⟩, hitems (.blank "l"), hread [] (.blank "r")⟩

/-- A collection whose item is there twice, and a restriction whose property is. -/
def doubled : List Triple :=
  [⟨.blank "l", .iri Rdf.first, .iri "a"⟩, ⟨.blank "l", .iri Rdf.first, .iri "a"⟩,
    ⟨.blank "l", .iri Rdf.rest, .iri Rdf.nil⟩,
    ⟨.blank "r", .iri Owl.onProperty, .iri "p"⟩, ⟨.blank "r", .iri Owl.onProperty, .iri "p"⟩,
    ⟨.blank "r", .iri Owl.someValuesFrom, .iri "C"⟩]

/-- The list finds no collection and no class where the graph finds both. -/
theorem misread_of_doubled :
    (Collection.items doubled (.blank "l") = .error (.malformed (.blank "l")) ∧
      Collection.items (Graph.ofList doubled) (.blank "l") = .ok [.iri "a"]) ∧
      (readClass doubled (.blank "r") []).1 =
        .error (.manyValues (.blank "r") 2 Owl.onProperty) ∧
      (readClass (Graph.ofList doubled) (.blank "r") []).1 =
        .ok (.someValuesFrom (.named (.iri "p")) (.named (.iri "C"))) := by
  refine ⟨⟨?_, ?_⟩, ?_, ?_⟩ <;> rfl

end HornReasoner.Ontology
