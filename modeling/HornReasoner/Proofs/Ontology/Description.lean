import HornReasoner.Ontology.Axiom
import HornReasoner.Proofs.Ontology.Reading
import HornReasoner.Proofs.Rdf.Query
import Mathlib.Data.Finset.Card

/-! What a description depends on.

The reader looks at the triples that describe a node, in no order, and at no class axiom. On its
way it reads each described node once, so fuel for all of them is never used up. So two graphs
that differ only in class axioms, or in the order of their triples, are read alike
(`SameDescriptions.read_eq`), and whatever is read, the list of the terms being read is left
as it was found. -/
namespace HornReasoner.Ontology

open TripleSource

/-- A predicate that may describe a class, a property or a collection: none of a class axiom. -/
def Describes (predicate : Term) : Prop :=
  predicate ≠ .iri Vocabulary.Rdfs.subClassOf ∧ predicate ≠ .iri Vocabulary.Owl.equivalentClass

instance (predicate : Term) : Decidable (Describes predicate) :=
  inferInstanceAs (Decidable (_ ∧ _))

/-- The descriptions of both sources are the same, and those of the `nodes`. -/
structure SameDescriptions {σ : Type} [TripleSource σ] (source source' : σ) (nodes : List Term) :
    Prop where
  objects_perm : ∀ node predicate, Describes predicate →
    (objects source node predicate).Perm (objects source' node predicate)
  contains_eq : ∀ t : Triple, Describes t.predicate → contains source t = contains source' t
  mem_nodes : ∀ node predicate, Describes predicate → objects source node predicate ≠ [] →
    node ∈ nodes
  fuel : nodes.length ≤ (triples source).length
  fuel' : nodes.length ≤ (triples source').length

/-- The number of nodes that are not on the list. -/
def unseen (nodes terms : List Term) : Nat := (nodes.toFinset \ terms.toFinset).card

theorem unseen_le (nodes terms : List Term) : unseen nodes terms ≤ nodes.length :=
  (Finset.card_le_card Finset.sdiff_subset).trans (List.toFinset_card_le nodes)

theorem unseen_cons_lt {nodes terms : List Term} {t : Term} (hnode : t ∈ nodes) (ht : t ∉ terms) :
    unseen nodes (t :: terms) < unseen nodes terms := by
  have hsubset : nodes.toFinset \ (t :: terms).toFinset ⊆ nodes.toFinset \ terms.toFinset := by
    rw [List.toFinset_cons]
    exact Finset.sdiff_subset_sdiff (Finset.Subset.refl _) (Finset.subset_insert t _)
  refine Finset.card_lt_card ((Finset.ssubset_iff_of_subset hsubset).mpr ⟨t, ?_, ?_⟩)
  · simpa using ⟨hnode, ht⟩
  · simp

namespace SameDescriptions
variable {σ : Type} [TripleSource σ] {source source' : σ} {nodes : List Term}

theorem value_eq (h : SameDescriptions source source' nodes) {node predicate : Term}
    (hp : Describes predicate) : value source node predicate = value source' node predicate :=
  value_eq_of_perm (h.objects_perm node predicate hp)

theorem mem_of_value (h : SameDescriptions source source' nodes) {node predicate o : Term}
    (hp : Describes predicate) (ho : value source node predicate = some o) : node ∈ nodes := by
  refine h.mem_nodes node predicate hp fun hnil => ?_
  rw [value, hnil] at ho
  cases ho

theorem follow_eq (h : SameDescriptions source source' nodes) {fuel fuel' : Nat}
    {visited : List Term} {node : Term} (hfuel : unseen nodes visited < fuel)
    (hfuel' : unseen nodes visited < fuel') :
    Collection.follow source fuel visited node = Collection.follow source' fuel' visited node := by
  have hfirst : Describes (.iri Vocabulary.Rdf.first) := by decide
  have hrest : Describes (.iri Vocabulary.Rdf.rest) := by decide
  induction fuel generalizing fuel' visited node with
  | zero => exact absurd hfuel (Nat.not_lt_zero _)
  | succ fuel ih =>
    cases fuel' with
    | zero => exact absurd hfuel' (Nat.not_lt_zero _)
    | succ fuel' =>
      rw [Collection.follow, Collection.follow, ← h.value_eq hfirst, ← h.value_eq hrest]
      split
      · rfl
      · split
        · rfl
        · rename_i hnew
          cases hitem : value source node (.iri Vocabulary.Rdf.first) with
          | none => rfl
          | some item =>
            cases value source node (.iri Vocabulary.Rdf.rest) with
            | none => rfl
            | some next =>
              have hlt := unseen_cons_lt (h.mem_of_value hfirst hitem) hnew
              exact congrArg (Except.map (item :: ·)) (ih (by omega) (by omega))

theorem collection_items_eq (h : SameDescriptions source source' nodes) (head : Term) :
    Collection.items source head = Collection.items source' head := by
  have hle := unseen_le nodes []
  have hfuel := h.fuel
  have hfuel' := h.fuel'
  exact h.follow_eq (by omega) (by omega)

end SameDescriptions

/-! ### Actions -/

/-- The actions do the same with the list, and leave it as it is. -/
structure Agree {α : Type} (terms : List Term) (act act' : Reading α) : Prop where
  same : act terms = act' terms
  keeps : (act terms).2 = terms

namespace Agree
variable {α β : Type} {terms : List Term}

theorem pure (a : α) : Agree terms (Pure.pure a) (Pure.pure a) := ⟨rfl, rfl⟩

theorem throw (e : OntologyError) :
    Agree (α := α) terms (MonadExcept.throw e) (MonadExcept.throw e) := ⟨rfl, rfl⟩

/-- What follows has to agree on what the first actions find. -/
theorem bind {act act' : Reading α} {f f' : α → Reading β} (h : Agree terms act act')
    (hf : ∀ a, act terms = (.ok a, terms) → Agree terms (f a) (f' a)) :
    Agree terms (act >>= f) (act' >>= f') := by
  have hbind : ∀ (g : α → Reading β) (act : Reading α),
      (act >>= g) terms = ExceptT.bindCont g (act terms).1 (act terms).2 := fun _ _ => rfl
  obtain ⟨hsame, hkeeps⟩ := h
  cases hact : act terms with
  | mk result next =>
    rw [hact] at hkeeps hsame
    obtain rfl : next = terms := hkeeps
    cases result with
    | error e =>
      constructor
      · rw [hbind, hbind, ← hsame, hact]
        rfl
      · rw [hbind, hact]
        rfl
    | ok a =>
      obtain ⟨hagree, hkept⟩ := hf a hact
      constructor
      · rw [hbind, hbind, ← hsame, hact]
        exact hagree
      · rw [hbind, hact]
        exact hkept

theorem mapM {read read' : α → Reading β} (h : ∀ a, Agree terms (read a) (read' a))
    (as : List α) : Agree terms (as.mapM read) (as.mapM read') := by
  induction as with
  | nil =>
    rw [List.mapM_nil, List.mapM_nil]
    exact .pure _
  | cons a rest ih =>
    rw [List.mapM_cons, List.mapM_cons]
    exact (h a).bind fun b _ => ih.bind fun bs _ => .pure _

/-- A term is on the list only while it is read. -/
theorem visiting {t : Term} {describe describe' : Reading α}
    (h : t ∉ terms → Agree (t :: terms) describe describe') :
    Agree terms (Ontology.visiting t describe) (Ontology.visiting t describe') := by
  by_cases ht : t ∈ terms
  · constructor <;> simp [Ontology.visiting, ht]
  · obtain ⟨hsame, hkeeps⟩ := h ht
    constructor
    · rw [Ontology.visiting, Ontology.visiting, hsame]
    · rw [Ontology.visiting, if_neg ht]
      show (describe (t :: terms)).2.erase t = terms
      rw [hkeeps, List.erase_cons_head]

end Agree

/-! ### Objects in another order -/

section Congr
variable {σ τ : Type} [TripleSource σ] [TripleSource τ] {source : σ} {source' : τ} {node : Term}

theorem single_congr {predicate : String}
    (h : (objects source node (.iri predicate)).Perm (objects source' node (.iri predicate))) :
    single source node predicate = single source' node predicate := by
  have hlength := h.length_eq
  unfold single
  rcases cases_of_perm h with ⟨hnone, hnone'⟩ | ⟨o, hone, hone'⟩ | ⟨_, _, _, _, _, _, hmany, hmany'⟩
  · rw [hnone, hnone']
  · rw [hone, hone']
  · rw [hmany, hmany'] at hlength ⊢
    dsimp only
    rw [hlength]

/-- The fillers of a restriction with their predicates. -/
def fillersOf (source : σ) (node : Term) : List (String × Term) :=
  fillerPredicates.flatMap fun predicate =>
    (objects source node (.iri predicate)).map (predicate, ·)

theorem restriction_eq (source : σ) (read : Term → Reading ClassExpr) (node : Term)
    (property : PropertyExpr) : restriction source read node property =
      match fillersOf source node with
      | [] => throw (.emptyRestriction node)
      | [(predicate, filler)] => restrictionOf read property predicate filler
      | _ => throw (.manyFillers node ((fillersOf source node).map Prod.fst)) :=
  rfl

theorem fillersOf_perm (h : ∀ predicate ∈ fillerPredicates,
      (objects source node (.iri predicate)).Perm (objects source' node (.iri predicate))) :
    (fillersOf source node).Perm (fillersOf source' node) :=
  List.Perm.flatMap_left _ fun predicate hmem => (h predicate hmem).map _

theorem map_fst_fillersOf_congr (h : ∀ predicate ∈ fillerPredicates,
      (objects source node (.iri predicate)).length =
        (objects source' node (.iri predicate)).length) :
    (fillersOf source node).map Prod.fst = (fillersOf source' node).map Prod.fst := by
  rw [fillersOf, fillersOf, List.map_flatMap, List.map_flatMap]
  refine List.flatMap_congr fun predicate hmem => ?_
  simp only [List.map_map, Function.comp_def, List.map_const', h predicate hmem]

theorem restriction_congr (h : ∀ predicate ∈ fillerPredicates,
      (objects source node (.iri predicate)).Perm (objects source' node (.iri predicate)))
    (read : Term → Reading ClassExpr) (property : PropertyExpr) :
    restriction source read node property = restriction source' read node property := by
  have hkinds := map_fst_fillersOf_congr fun predicate hmem => (h predicate hmem).length_eq
  rw [restriction_eq, restriction_eq]
  rcases cases_of_perm (fillersOf_perm h) with ⟨hnone, hnone'⟩ | ⟨e, hone, hone'⟩ |
    ⟨_, _, _, _, _, _, hmany, hmany'⟩
  · rw [hnone, hnone']
  · rw [hone, hone']
  · rw [hmany, hmany'] at hkinds ⊢
    dsimp only
    rw [hkinds]

end Congr

/-! ### Descriptions -/

section Reader
variable {σ : Type} [TripleSource σ] {source source' : σ} {nodes terms : List Term}

theorem agree_single (h : SameDescriptions source source' nodes) {predicate : String}
    (hp : Describes (.iri predicate)) (node : Term) :
    Agree terms (single source node predicate) (single source' node predicate) := by
  rw [single_congr (h.objects_perm node (.iri predicate) hp), single]
  split
  · exact .pure none
  · exact .pure (some _)
  · exact .throw _

theorem mem_of_single (h : SameDescriptions source source' nodes) {predicate : String}
    (hp : Describes (.iri predicate)) {node o : Term}
    (ho : single source node predicate terms = (.ok (some o), terms)) : node ∈ nodes := by
  refine h.mem_nodes node (.iri predicate) hp fun hnil => ?_
  rw [single, hnil] at ho
  cases ho

theorem agree_items (h : SameDescriptions source source' nodes) (head : Term) :
    Agree terms (items source head) (items source' head) := by
  rw [items, items, h.collection_items_eq head]
  split
  · exact .pure _
  · exact .throw _

/-- One call of the property reader; `read` answers the call that it makes. -/
def propertyStep (source : σ) (read : Term → Reading PropertyExpr) (t : Term) :
    Reading PropertyExpr :=
  if !t.isBlank then pure (.named t)
  else visiting t do
    match ← single source t Vocabulary.Owl.inverseOf with
    | some inner => return .inverseOf (← read inner)
    | none => return .named t

/-- Calls nested as deeply as there is fuel. -/
theorem propertyFrom_eq_iterate (source : σ) (fuel : Nat) :
    propertyFrom source fuel = (propertyStep source)^[fuel] (propertyFrom source 0) := by
  induction fuel with
  | zero => rfl
  | succ fuel ih =>
    rw [Function.iterate_succ_apply', ← ih]
    rfl

/-- The step calls for nodes only, and each time a new one is on the list. So what answers the
calls that are nested too deeply does not matter. -/
theorem agree_iterate_propertyStep (h : SameDescriptions source source' nodes) {fuel fuel' : Nat}
    {stop stop' : Term → Reading PropertyExpr} {t : Term} (hfuel : unseen nodes terms < fuel)
    (hfuel' : unseen nodes terms < fuel') :
    Agree terms ((propertyStep source)^[fuel] stop t) ((propertyStep source')^[fuel'] stop' t) := by
  have hinverse : Describes (.iri Vocabulary.Owl.inverseOf) := by decide
  induction fuel generalizing fuel' terms t with
  | zero => exact absurd hfuel (Nat.not_lt_zero _)
  | succ fuel ih =>
    cases fuel' with
    | zero => exact absurd hfuel' (Nat.not_lt_zero _)
    | succ fuel' =>
      rw [Function.iterate_succ_apply', Function.iterate_succ_apply', propertyStep, propertyStep]
      split
      · exact .pure _
      · refine .visiting fun hnew => (agree_single h hinverse t).bind fun inner? hinner => ?_
        cases inner? with
        | none => exact .pure _
        | some inner =>
          have hlt := unseen_cons_lt (mem_of_single h hinverse hinner) hnew
          exact (ih (by omega) (by omega)).bind fun _ _ => .pure _

theorem agree_propertyFrom (h : SameDescriptions source source' nodes) {fuel fuel' : Nat} {t : Term}
    (hfuel : unseen nodes terms < fuel) (hfuel' : unseen nodes terms < fuel') :
    Agree terms (propertyFrom source fuel t) (propertyFrom source' fuel' t) := by
  rw [propertyFrom_eq_iterate source, propertyFrom_eq_iterate source']
  exact agree_iterate_propertyStep h hfuel hfuel'

theorem agree_readProperty (h : SameDescriptions source source' nodes) (t : Term) :
    Agree terms (readProperty source t) (readProperty source' t) := by
  have hle := unseen_le nodes terms
  have hfuel := h.fuel
  have hfuel' := h.fuel'
  exact agree_propertyFrom h (by rw [depth]; omega) (by rw [depth]; omega)

section Anonymous
variable {readProperty readProperty' : Term → Reading PropertyExpr}
  {read read' : Term → Reading ClassExpr} {node : Term}

theorem agree_restrictionOf (hread : ∀ t, Agree terms (read t) (read' t)) (property : PropertyExpr)
    (predicate : String) (filler : Term) :
    Agree terms (restrictionOf read property predicate filler)
      (restrictionOf read' property predicate filler) := by
  unfold restrictionOf
  repeat' split
  · exact (hread filler).bind fun _ _ => .pure _
  · exact (hread filler).bind fun _ _ => .pure _
  all_goals exact .pure _

theorem describes_of_mem_fillerPredicates :
    ∀ predicate ∈ fillerPredicates, Describes (.iri predicate) := by
  decide

theorem agree_restriction (h : SameDescriptions source source' nodes)
    (hread : node ∈ nodes → ∀ t, Agree terms (read t) (read' t)) (property : PropertyExpr) :
    Agree terms (restriction source read node property)
      (restriction source' read' node property) := by
  have hperm : ∀ predicate ∈ fillerPredicates,
      (objects source node (.iri predicate)).Perm (objects source' node (.iri predicate)) :=
    fun predicate hmem => h.objects_perm node _ (describes_of_mem_fillerPredicates predicate hmem)
  have hnode : ∀ e ∈ fillersOf source node, node ∈ nodes := by
    intro e he
    obtain ⟨predicate, hpredicate, he⟩ := List.mem_flatMap.mp he
    obtain ⟨o, ho, rfl⟩ := List.mem_map.mp he
    exact h.mem_nodes node _ (describes_of_mem_fillerPredicates predicate hpredicate)
      (List.ne_nil_of_mem ho)
  rw [← restriction_congr hperm, restriction_eq, restriction_eq]
  split
  · exact .throw _
  · rename_i predicate filler hone
    have hmem := hnode (predicate, filler) (hone ▸ List.mem_singleton_self _)
    exact agree_restrictionOf (hread hmem) property _ _
  · exact .throw _

theorem agree_anonymous (h : SameDescriptions source source' nodes)
    (hreadProperty : ∀ t, Agree terms (readProperty t) (readProperty' t))
    (hread : node ∈ nodes → ∀ t, Agree terms (read t) (read' t)) :
    Agree terms (anonymous source readProperty read node)
      (anonymous source' readProperty' read' node) := by
  unfold anonymous
  refine (agree_single h (by decide) node).bind fun list? hlist => ?_
  cases list? with
  | some list =>
    have hnode := mem_of_single h (by decide) hlist
    exact (agree_items h list).bind fun members _ =>
      (Agree.mapM (hread hnode) members).bind fun _ _ => .pure _
  | none =>
  refine (agree_single h (by decide) node).bind fun list? hlist => ?_
  cases list? with
  | some list =>
    have hnode := mem_of_single h (by decide) hlist
    exact (agree_items h list).bind fun members _ =>
      (Agree.mapM (hread hnode) members).bind fun _ _ => .pure _
  | none =>
  refine (agree_single h (by decide) node).bind fun inner? hinner => ?_
  cases inner? with
  | some inner =>
    have hnode := mem_of_single h (by decide) hinner
    exact (hread hnode inner).bind fun _ _ => .pure _
  | none =>
  refine (agree_single h (by decide) node).bind fun list? _ => ?_
  cases list? with
  | some list => exact (agree_items h list).bind fun _ _ => .pure _
  | none =>
  refine (agree_single h (by decide) node).bind fun property? _ => ?_
  cases property? with
  | some property =>
    exact (hreadProperty property).bind fun expression _ => agree_restriction h hread expression
  | none =>
    dsimp only
    rw [h.contains_eq _ (show Describes (.iri Vocabulary.Rdf.type) by decide)]
    split
    · exact .throw _
    · exact .pure _

end Anonymous

/-- One call of the class reader; `read` answers the calls that it makes for parts. -/
def classStep (source : σ) (readProperty : Term → Reading PropertyExpr)
    (read : Term → Reading ClassExpr) : Term → Reading ClassExpr
  | .iri s =>
    if s = Vocabulary.Owl.thing then pure .thing
    else if s = Vocabulary.Owl.nothing then pure .nothing
    else pure (.named (.iri s))
  | t => visiting t (anonymous source readProperty read t)

theorem classFrom_eq_iterate (source : σ) (readProperty : Term → Reading PropertyExpr)
    (fuel : Nat) : classFrom source readProperty fuel =
      (classStep source readProperty)^[fuel] (classFrom source readProperty 0) := by
  induction fuel with
  | zero => rfl
  | succ fuel ih =>
    rw [Function.iterate_succ_apply', ← ih]
    funext t
    cases t <;> rfl

theorem agree_iterate_classStep (h : SameDescriptions source source' nodes)
    {readProperty readProperty' : Term → Reading PropertyExpr}
    (hreadProperty : ∀ terms t, Agree terms (readProperty t) (readProperty' t)) {fuel fuel' : Nat}
    {stop stop' : Term → Reading ClassExpr} {t : Term} (hfuel : unseen nodes terms < fuel)
    (hfuel' : unseen nodes terms < fuel') :
    Agree terms ((classStep source readProperty)^[fuel] stop t)
      ((classStep source' readProperty')^[fuel'] stop' t) := by
  induction fuel generalizing fuel' terms t with
  | zero => exact absurd hfuel (Nat.not_lt_zero _)
  | succ fuel ih =>
    cases fuel' with
    | zero => exact absurd hfuel' (Nat.not_lt_zero _)
    | succ fuel' =>
      rw [Function.iterate_succ_apply', Function.iterate_succ_apply']
      cases t with
      | iri s =>
        rw [classStep, classStep]
        repeat' split
        all_goals exact .pure _
      | literal _ | blank _ | var _ =>
        simp only [classStep]
        refine .visiting fun hnew => agree_anonymous h (hreadProperty _) fun hnode _ => ?_
        have hlt := unseen_cons_lt hnode hnew
        exact ih (by omega) (by omega)

theorem agree_classFrom (h : SameDescriptions source source' nodes)
    {readProperty readProperty' : Term → Reading PropertyExpr}
    (hreadProperty : ∀ terms t, Agree terms (readProperty t) (readProperty' t)) {fuel fuel' : Nat}
    {t : Term} (hfuel : unseen nodes terms < fuel) (hfuel' : unseen nodes terms < fuel') :
    Agree terms (classFrom source readProperty fuel t)
      (classFrom source' readProperty' fuel' t) := by
  rw [classFrom_eq_iterate source, classFrom_eq_iterate source']
  exact agree_iterate_classStep h hreadProperty hfuel hfuel'

theorem agree_readClass (h : SameDescriptions source source' nodes) (t : Term) :
    Agree terms (readClass source t) (readClass source' t) := by
  have hle := unseen_le nodes terms
  have hfuel := h.fuel
  have hfuel' := h.fuel'
  exact agree_classFrom h (fun _ => agree_readProperty h) (by rw [depth]; omega)
    (by rw [depth]; omega)

theorem agree_readMembers (h : SameDescriptions source source' nodes) (list : Term) :
    Agree terms (readMembers source list) (readMembers source' list) :=
  (agree_items h list).bind fun members _ => .mapM (agree_readClass h) members

/-- **Sources with the same descriptions are read alike.** -/
theorem SameDescriptions.read_eq (h : SameDescriptions source source' nodes) :
    readProperty source = readProperty source' ∧ readClass source = readClass source' ∧
      readMembers source = readMembers source' :=
  ⟨funext fun t => funext fun _ => (agree_readProperty h t).same,
    funext fun t => funext fun _ => (agree_readClass h t).same,
    funext fun t => funext fun _ => (agree_readMembers h t).same⟩

end Reader

/-- The clauses of an axiom depend on the descriptions only. -/
theorem SameDescriptions.clauses_eq {σ : Type} [TripleSource σ] {source source' : σ}
    {nodes : List Term} (h : SameDescriptions source source' nodes) (a : Axiom) :
    a.clauses source = a.clauses source' := by
  obtain ⟨hproperty, hclass, hmembers⟩ := h.read_eq
  cases a <;> simp only [Axiom.clauses, hproperty, hclass, hmembers]

/-! ### Graphs -/

section Graph
variable {g g' : Graph}

/-- Graphs with the same describing triples have the same descriptions, whatever their orders. -/
theorem sameDescriptions_of_graphs
    (h : ∀ t : Triple, Describes t.predicate → (t ∈ g.toList ↔ t ∈ g'.toList)) :
    ∃ nodes, SameDescriptions g g' nodes := by
  have hperm : (g.toList.filter fun t => Describes t.predicate).Perm
      (g'.toList.filter fun t => Describes t.predicate) := by
    refine (List.perm_ext_iff_of_nodup (g.nodup.filter _) (g'.nodup.filter _)).mpr fun t => ?_
    simp only [List.mem_filter, decide_eq_true_eq]
    exact and_congr_left (h t)
  refine ⟨(g.toList.filter fun t => Describes t.predicate).map Triple.subject, ?_, ?_, ?_, ?_, ?_⟩
  · intro node predicate hp
    have hobjects := List.perm_ext_iff_of_nodup (g.nodup_objects node predicate)
      (g'.nodup_objects node predicate)
    refine hobjects.mpr fun o => ?_
    rw [Graph.mem_objects, Graph.mem_objects, h _ hp]
  · intro t ht
    show g.contains t = g'.contains t
    rw [Bool.eq_iff_iff, Graph.contains_iff, Graph.contains_iff, h t ht]
  · intro node predicate hp hne
    obtain ⟨o, ho⟩ := List.exists_mem_of_ne_nil _ hne
    exact List.mem_map.mpr ⟨⟨node, predicate, o⟩,
      List.mem_filter.mpr ⟨Graph.mem_objects.mp ho, decide_eq_true hp⟩, rfl⟩
  · rw [List.length_map, Graph.triples_eq]
    exact List.length_filter_le _ _
  · rw [List.length_map, hperm.length_eq, Graph.triples_eq]
    exact List.length_filter_le _ _

theorem exists_sameDescriptions_self (g : Graph) : ∃ nodes, SameDescriptions g g nodes :=
  sameDescriptions_of_graphs fun _ _ => Iff.rfl

end Graph

end HornReasoner.Ontology
