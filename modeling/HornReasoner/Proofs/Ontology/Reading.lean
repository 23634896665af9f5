import HornReasoner.Ontology.Reader
import HornReasoner.Proofs.Ontology.Membership

/-! What the reader finds.

A description is read out of the triples of a source, so its classes, properties and values
stand in these triples, or are the term that was to be read. A literal, a blank node without a
description and a value are taken as they are. -/
namespace HornReasoner

variable {σ : Type} [TripleSource σ] {source : σ}

/-- The term stands in a triple that the source answers with. -/
def TripleSource.Mentions (source : σ) (x : Term) : Prop :=
  ∃ query, ∃ t ∈ matching source query, x ∈ t.terms

theorem TripleSource.mentions_of_mem_objects {s p o : Term} (h : o ∈ objects source s p) :
    Mentions source o := by
  obtain ⟨t, ht, rfl⟩ := List.mem_map.mp h
  exact ⟨_, t, ht, by simp [Triple.terms]⟩

theorem TripleSource.mentions_of_value {s p o : Term} (h : value source s p = some o) :
    Mentions source o := by
  unfold value at h
  split at h
  · rename_i found hobjects
    cases h
    exact mentions_of_mem_objects (hobjects ▸ List.mem_singleton_self _)
  · cases h

theorem Graph.mem_of_mem_matching {g : Graph} {query : Query} {t : Triple}
    (h : t ∈ g.matching query) : t ∈ g.toList := by
  obtain ⟨i, _, hi⟩ := List.mem_filterMap.mp h
  exact List.mem_of_getElem? hi

/-- A graph answers with its triples. -/
theorem Graph.exists_of_mentions {g : Graph} {x : Term} (h : TripleSource.Mentions g x) :
    ∃ t ∈ g.toList, x ∈ t.terms := by
  obtain ⟨query, t, ht, hx⟩ := h
  exact ⟨t, mem_of_mem_matching ht, hx⟩

theorem VariableFree.isIndividual_of_mentions {g : Graph} (hg : VariableFree {t | t ∈ g.toList})
    {u : Term} (hu : TripleSource.Mentions g u) : u.IsIndividual := by
  obtain ⟨t, ht, hu⟩ := Graph.exists_of_mentions hu
  exact hg.isIndividual ht hu

open TripleSource

theorem Collection.mentions_of_follow {fuel : Nat} {visited found : List Term} {node : Term}
    (h : follow source fuel visited node = .ok found) : ∀ item ∈ found, Mentions source item := by
  induction fuel generalizing visited node found with
  | zero => cases h
  | succ fuel ih =>
    rw [follow] at h
    split at h
    · cases h
      simp
    · split at h
      · cases h
      · split at h
        · cases h
        · rename_i item hitem
          split at h
          · cases h
          · rename_i next hnext
            cases hrest : follow source fuel (node :: visited) next with
            | error fault => simp [hrest, Except.map] at h
            | ok others =>
              simp only [hrest, Except.map, Except.ok.injEq] at h
              subst h
              exact List.forall_mem_cons.mpr ⟨mentions_of_value hitem, ih hrest⟩

namespace Ontology

/-! ### Actions -/

section Actions
variable {α β : Type} {terms terms' : List Term}

theorem visiting_eq_ok {t : Term} {describe : Reading α} {a : α}
    (h : visiting t describe terms = (.ok a, terms')) :
    ∃ next, describe (t :: terms) = (.ok a, next) := by
  unfold visiting at h
  split at h
  · cases h
  · cases hdescribe : describe (t :: terms) with
    | mk result next =>
      rw [hdescribe] at h
      exact ⟨next, by rw [show result = .ok a from congrArg Prod.fst h]⟩

theorem mapM_eq_ok {read : α → Reading β} {items : List α} {found : List β}
    (h : items.mapM read terms = (.ok found, terms')) :
    ∀ b ∈ found, ∃ a ∈ items, ∃ before after, read a before = (.ok b, after) := by
  induction items generalizing terms found with
  | nil =>
    rw [List.mapM_nil] at h
    obtain ⟨rfl, rfl⟩ := pure_eq_ok h
    simp
  | cons a rest ih =>
    rw [List.mapM_cons] at h
    obtain ⟨b, next, hfirst, h⟩ := bind_eq_ok h
    obtain ⟨others, last, hrest, h⟩ := bind_eq_ok h
    obtain ⟨rfl, rfl⟩ := pure_eq_ok h
    refine List.forall_mem_cons.mpr ⟨⟨a, List.mem_cons_self .., _, _, hfirst⟩, fun c hc => ?_⟩
    obtain ⟨d, hd, hread⟩ := ih hrest c hc
    exact ⟨d, List.mem_cons_of_mem _ hd, hread⟩

theorem single_eq_ok {node o : Term} {predicate : String}
    (h : single source node predicate terms = (.ok (some o), terms')) : Mentions source o := by
  rw [single] at h
  rcases hobjects : objects source node (.iri predicate) with _ | ⟨found, _ | ⟨other, others⟩⟩ <;>
    rw [hobjects] at h <;> cases h
  exact mentions_of_mem_objects (hobjects ▸ List.mem_singleton_self _)

theorem items_eq_ok {head : Term} {found : List Term}
    (h : items source head terms = (.ok found, terms')) : ∀ item ∈ found, Mentions source item := by
  rw [items] at h
  cases hitems : Collection.items source head with
  | ok others =>
    rw [hitems] at h
    obtain ⟨rfl, rfl⟩ := pure_eq_ok h
    exact Collection.mentions_of_follow hitems
  | error fault =>
    rw [hitems] at h
    cases h

end Actions

/-! ### Descriptions -/

variable {terms terms' : List Term} {t : Term}

theorem propertyFrom_mentions {fuel : Nat} {property : PropertyExpr} (ht : Mentions source t)
    (h : propertyFrom source fuel t terms = (.ok property, terms')) :
    property.AllTerms (Mentions source) := by
  induction fuel generalizing t terms terms' property with
  | zero => cases h
  | succ fuel ih =>
    rw [propertyFrom] at h
    split at h
    · obtain ⟨rfl, rfl⟩ := pure_eq_ok h
      exact ht
    · obtain ⟨last, h⟩ := visiting_eq_ok h
      obtain ⟨found, next, hfound, h⟩ := bind_eq_ok h
      cases found with
      | some inner =>
        obtain ⟨expression, _, hinner, h⟩ := bind_eq_ok h
        obtain ⟨rfl, rfl⟩ := pure_eq_ok h
        have hmentions := ih (single_eq_ok hfound) hinner
        exact hmentions
      | none =>
        obtain ⟨rfl, rfl⟩ := pure_eq_ok h
        exact ht

theorem readProperty_mentions {property : PropertyExpr} (ht : Mentions source t)
    (h : readProperty source t terms = (.ok property, terms')) :
    property.AllTerms (Mentions source) :=
  propertyFrom_mentions ht h

section Anonymous
variable {readProperty : Term → Reading PropertyExpr} {read : Term → Reading ClassExpr}
  {cls : ClassExpr}

theorem restrictionOf_mentions (hread : ∀ t terms cls terms', Mentions source t →
      read t terms = (.ok cls, terms') → cls.AllTerms (Mentions source))
    {property : PropertyExpr} (hproperty : property.AllTerms (Mentions source))
    {predicate : String} (ht : Mentions source t)
    (h : restrictionOf read property predicate t terms = (.ok cls, terms')) :
    cls.AllTerms (Mentions source) := by
  unfold restrictionOf at h
  split at h
  · obtain ⟨inner, _, hinner, h⟩ := bind_eq_ok h
    obtain ⟨rfl, rfl⟩ := pure_eq_ok h
    exact ⟨hproperty, hread _ _ _ _ ht hinner⟩
  split at h
  · obtain ⟨inner, _, hinner, h⟩ := bind_eq_ok h
    obtain ⟨rfl, rfl⟩ := pure_eq_ok h
    exact ⟨hproperty, hread _ _ _ _ ht hinner⟩
  -- all other kinds keep the term as a value
  repeat' split at h
  all_goals
    obtain ⟨rfl, rfl⟩ := pure_eq_ok h
    exact ⟨hproperty, ht⟩

theorem restriction_mentions (hread : ∀ t terms cls terms', Mentions source t →
      read t terms = (.ok cls, terms') → cls.AllTerms (Mentions source))
    {property : PropertyExpr} (hproperty : property.AllTerms (Mentions source))
    (h : restriction source read t property terms = (.ok cls, terms')) :
    cls.AllTerms (Mentions source) := by
  rw [restriction] at h
  obtain ⟨fillers, hfillers⟩ : ∃ fillers, fillerPredicates.flatMap (fun predicate =>
      (objects source t (.iri predicate)).map (predicate, ·)) = fillers := ⟨_, rfl⟩
  have hmentions : ∀ e ∈ fillers, Mentions source e.2 := by
    intro e he
    rw [← hfillers] at he
    obtain ⟨p, _, hmem⟩ := List.mem_flatMap.mp he
    obtain ⟨o, ho, rfl⟩ := List.mem_map.mp hmem
    exact mentions_of_mem_objects ho
  rw [hfillers] at h
  rcases fillers with _ | ⟨⟨predicate, filler⟩, _ | ⟨other, others⟩⟩
  · cases h
  · exact restrictionOf_mentions hread hproperty (hmentions _ (List.mem_singleton_self _)) h
  · cases h

theorem anonymous_mentions (hread : ∀ t terms cls terms', Mentions source t →
      read t terms = (.ok cls, terms') → cls.AllTerms (Mentions source))
    (hreadProperty : ∀ t terms property terms', Mentions source t →
      readProperty t terms = (.ok property, terms') → property.AllTerms (Mentions source))
    (ht : Mentions source t)
    (h : anonymous source readProperty read t terms = (.ok cls, terms')) :
    cls.AllTerms (Mentions source) := by
  have hmembersRead : ∀ {list members terms terms' parts before after},
      items source list terms = (.ok members, terms') →
      members.mapM read before = (.ok parts, after) →
      ∀ part ∈ parts, part.AllTerms (Mentions source) := by
    intro list members terms terms' parts before after hmembers hparts part hpart
    obtain ⟨item, hitem, _, _, hpart⟩ := mapM_eq_ok hparts part hpart
    exact hread _ _ _ _ (items_eq_ok hmembers item hitem) hpart
  unfold anonymous at h
  obtain ⟨list?, _, hlist, h⟩ := bind_eq_ok h
  cases list? with
  | some list =>
    obtain ⟨members, _, hmembers, h⟩ := bind_eq_ok h
    obtain ⟨parts, _, hparts, h⟩ := bind_eq_ok h
    obtain ⟨rfl, rfl⟩ := pure_eq_ok h
    exact ClassExpr.allTerms_intersectionOf.mpr (hmembersRead hmembers hparts)
  | none =>
  obtain ⟨list?, _, hlist, h⟩ := bind_eq_ok h
  cases list? with
  | some list =>
    obtain ⟨members, _, hmembers, h⟩ := bind_eq_ok h
    obtain ⟨parts, _, hparts, h⟩ := bind_eq_ok h
    obtain ⟨rfl, rfl⟩ := pure_eq_ok h
    exact ClassExpr.allTerms_unionOf.mpr (hmembersRead hmembers hparts)
  | none =>
  obtain ⟨inner?, _, hinner, h⟩ := bind_eq_ok h
  cases inner? with
  | some inner =>
    obtain ⟨expression, _, hexpression, h⟩ := bind_eq_ok h
    obtain ⟨rfl, rfl⟩ := pure_eq_ok h
    have hmentions := hread _ _ _ _ (single_eq_ok hinner) hexpression
    exact hmentions
  | none =>
  obtain ⟨list?, _, hlist, h⟩ := bind_eq_ok h
  cases list? with
  | some list =>
    obtain ⟨members, _, hmembers, h⟩ := bind_eq_ok h
    obtain ⟨rfl, rfl⟩ := pure_eq_ok h
    exact items_eq_ok hmembers
  | none =>
  obtain ⟨property?, _, hproperty, h⟩ := bind_eq_ok h
  cases property? with
  | some property =>
    obtain ⟨expression, _, hexpression, h⟩ := bind_eq_ok h
    have hnamed := hreadProperty _ _ _ _ (single_eq_ok hproperty) hexpression
    exact restriction_mentions hread hnamed h
  | none =>
  dsimp only at h
  split at h
  · cases h
  · obtain ⟨rfl, rfl⟩ := pure_eq_ok h
    exact ht

theorem classFrom_mentions (hreadProperty : ∀ t terms property terms', Mentions source t →
      readProperty t terms = (.ok property, terms') → property.AllTerms (Mentions source))
    {fuel : Nat} (ht : Mentions source t)
    (h : classFrom source readProperty fuel t terms = (.ok cls, terms')) :
    cls.AllTerms (Mentions source) := by
  induction fuel generalizing t terms terms' cls with
  | zero => cases h
  | succ fuel ih =>
    cases t with
    | iri s =>
      rw [classFrom] at h
      split at h
      · obtain ⟨rfl, rfl⟩ := pure_eq_ok h
        trivial
      · split at h
        · obtain ⟨rfl, rfl⟩ := pure_eq_ok h
          trivial
        · obtain ⟨rfl, rfl⟩ := pure_eq_ok h
          exact ht
    | literal _ | blank _ | var _ =>
      simp only [classFrom] at h
      obtain ⟨last, h⟩ := visiting_eq_ok h
      exact anonymous_mentions (fun _ _ _ _ ht h => ih ht h) hreadProperty ht h

end Anonymous

theorem readClass_mentions {cls : ClassExpr} (ht : Mentions source t)
    (h : readClass source t terms = (.ok cls, terms')) : cls.AllTerms (Mentions source) :=
  classFrom_mentions (fun _ _ _ _ ht h => readProperty_mentions ht h) ht h

theorem readMembers_mentions {members : List ClassExpr}
    (h : readMembers source t terms = (.ok members, terms')) :
    ∀ part ∈ members, part.AllTerms (Mentions source) := by
  rw [readMembers] at h
  obtain ⟨found, _, hfound, h⟩ := bind_eq_ok h
  intro part hpart
  obtain ⟨item, hitem, _, _, hread⟩ := mapM_eq_ok h part hpart
  exact readClass_mentions (items_eq_ok hfound item hitem) hread

end Ontology

end HornReasoner
