import HornReasoner.Proofs.Ontology.Inclusion
import HornReasoner.Proofs.Ontology.Reading

/-! The rules of an ontology.

Every axiom becomes clauses whose terms are the compiler's variables, `rdf:type` and terms of
the ontology, and no head of which has a variable that its body lacks (`Scoped`). The rules made
of them have bodies. What else holds of a rule turns on blank nodes alone, which making a rule
turns into variables: without them it keeps the ontology's terms as constants. -/
namespace HornReasoner

open TripleSource

namespace Ontology

variable {σ : Type} [TripleSource σ] {source : σ}

/-! ### Axioms -/

namespace Axiom

/-- The terms that the axiom relates satisfy `P`. -/
def AllTerms (P : Term → Prop) : Axiom → Prop
  | subClassOf sub sup => P sub ∧ P sup
  | equivalentClass left right => P left ∧ P right
  | intersection cls members => P cls ∧ P members
  | union cls members => P cls ∧ P members
  | inverse p q => P p ∧ P q
  | transitive p => P p
  | symmetric p => P p
  | domain p cls => P p ∧ P cls
  | range p cls => P p ∧ P cls
  | subPropertyOf sub sup => P sub ∧ P sup
  | equivalentProperty left right => P left ∧ P right
  | inexpressible _ cls => P cls

theorem mentions_pairsOf (predicate : String) :
    ∀ e ∈ pairsOf source predicate, Mentions source e.1 ∧ Mentions source e.2 := by
  intro e he
  obtain ⟨t, ht, rfl⟩ := List.mem_map.mp he
  exact ⟨⟨_, t, ht, by simp [Triple.terms]⟩, ⟨_, t, ht, by simp [Triple.terms]⟩⟩

theorem mentions_named (predicate : String) :
    ∀ e ∈ named source predicate, Mentions source e.1 ∧ Mentions source e.2 := by
  intro e he
  obtain ⟨t, ht, rfl⟩ := List.mem_map.mp he
  have hpair := List.mem_map_of_mem (f := fun t => (t.subject, t.object)) (List.mem_filter.mp ht).1
  exact mentions_pairsOf predicate _ hpair

theorem mentions_typed (cls : String) : ∀ t ∈ typed source cls, Mentions source t := by
  intro t ht
  obtain ⟨u, hu, rfl⟩ := List.mem_map.mp ht
  exact ⟨_, u, hu, by simp [Triple.terms]⟩

/-- Axioms relate terms of the source. -/
theorem mentions_all : ∀ a ∈ all source, a.AllTerms (Mentions source) := by
  simp only [all, List.forall_mem_append, List.forall_mem_map, AllTerms, List.mem_filter]
  exact ⟨⟨⟨⟨⟨⟨⟨⟨⟨⟨⟨⟨mentions_pairsOf _, mentions_pairsOf _⟩, mentions_named _⟩, mentions_named _⟩,
    fun e he => mentions_named _ e he.1⟩, mentions_typed _⟩, mentions_typed _⟩,
    mentions_pairsOf _⟩, mentions_pairsOf _⟩, mentions_pairsOf _⟩, mentions_pairsOf _⟩,
    fun e he => (mentions_named _ e he).1⟩, fun e he => (mentions_named _ e he).1⟩

end Axiom

/-! ### Clauses -/

/-- `?x`, `?y`, `?z` and the variables that are made. -/
def IsCompiled (v : Variable) : Prop :=
  .var v = x ∨ .var v = y ∨ .var v = z ∨ ∃ n, v = madeVariable (n + 1)

/-- The compiler's variables, `rdf:type` and the terms of the source. -/
def Admitted (source : σ) (t : Term) : Prop :=
  (∃ v, t = .var v ∧ IsCompiled v) ∨ t = .iri Vocabulary.Rdf.type ∨ Mentions source t

theorem admitted_x : Admitted source x := .inl ⟨_, rfl, .inl rfl⟩

theorem admitted_y : Admitted source y := .inl ⟨_, rfl, .inr (.inl rfl)⟩

theorem admitted_z : Admitted source z := .inl ⟨_, rfl, .inr (.inr (.inl rfl))⟩

theorem admitted_made (n : Nat) : Admitted source (.var (madeVariable (n + 1))) :=
  .inl ⟨_, rfl, .inr (.inr (.inr ⟨n, rfl⟩))⟩

theorem admitted_type : Admitted source (.iri Vocabulary.Rdf.type) := .inr (.inl rfl)

theorem admitted_of_mentions {t : Term} (h : Mentions source t) : Admitted source t :=
  .inr (.inr h)

/-- The clause is made of admitted terms, and each alternative of its body has the variables
of its head, but for one without atoms. -/
structure Scoped (source : σ) (c : Clause) : Prop where
  head : c.head.AllAtoms fun t => ∀ u ∈ t.terms, Admitted source u
  body : c.body.AllAtoms fun t => ∀ u ∈ t.terms, Admitted source u
  safe : ∃ vs, c.head.Guarded vs ∧ ∀ options, c.body.alternatives = .ok options →
    ∀ alt ∈ options, alt ≠ [] → vs ⊆ alt.flatMap Triple.vars

section Clauses
variable {p p' : Progress}

theorem reading_eq_ok {α : Type} {act : Reading α} {a : α} (h : reading act p = (.ok a, p')) :
    ∃ terms', act p.reading = (.ok a, terms') := by
  have hresult : (act p.reading).1 = .ok a := congrArg Prod.fst h
  exact ⟨(act p.reading).2, Prod.ext hresult rfl⟩

theorem reading_class {t : Term} {cls : ClassExpr} (ht : Mentions source t)
    (h : reading (readClass source t) p = (.ok cls, p')) : cls.AllTerms (Mentions source) := by
  obtain ⟨_, h⟩ := reading_eq_ok h
  exact readClass_mentions ht h

theorem reading_property {t : Term} {property : PropertyExpr} (ht : Mentions source t)
    (h : reading (readProperty source t) p = (.ok property, p')) :
    property.AllTerms (Mentions source) := by
  obtain ⟨_, h⟩ := reading_eq_ok h
  exact readProperty_mentions ht h

theorem reading_members {t : Term} {parts : List ClassExpr}
    (h : reading (readMembers source t) p = (.ok parts, p')) :
    ∀ part ∈ parts, part.AllTerms (Mentions source) := by
  obtain ⟨_, h⟩ := reading_eq_ok h
  exact readMembers_mentions h

/-- A clause whose body is a list of atoms. -/
theorem Scoped.of_atoms {label : String} {head body : Formula} {ts : List Triple} {vs : List Variable}
    (hhead : head.AllAtoms fun t => ∀ u ∈ t.terms, Admitted source u) (hguarded : head.Guarded vs)
    (hbody : body.AllAtoms fun t => ∀ u ∈ t.terms, Admitted source u)
    (halternatives : body.alternatives = .ok [ts]) (hvs : vs ⊆ ts.flatMap Triple.vars) :
    Scoped source ⟨label, head, body⟩ := by
  refine ⟨hhead, hbody, vs, hguarded, fun options hoptions alt halt _ => ?_⟩
  cases halternatives.symm.trans hoptions
  rw [List.mem_singleton.mp halt]
  exact hvs

theorem Scoped.pair {c d : Clause} (hc : Scoped source c) (hd : Scoped source d) :
    ∀ e ∈ [c, d], Scoped source e :=
  List.forall_mem_cons.mpr ⟨hc, List.forall_mem_singleton.mpr hd⟩

variable (hfree : ∀ t, Mentions source t → t.IsIndividual)
include hfree

theorem scoped_inclusion {label : String} {sub sup : ClassExpr} {c : Clause}
    (hsub : sub.AllTerms (Mentions source)) (hsup : sup.AllTerms (Mentions source))
    (h : inclusion label sub sup p = (.ok c, p')) : Scoped source c := by
  obtain ⟨next, last, hbody, hhead⟩ := inclusion_eq_ok h
  have hadmitted : ∀ t, Mentions source t → Admitted source t := fun _ => admitted_of_mentions
  refine ⟨inHead_allTerms admitted_type admitted_made (hsup.mono hadmitted) admitted_x hhead,
    inBody_allTerms admitted_type admitted_made (hsub.mono hadmitted) admitted_x hbody,
    [⟨"x"⟩], inHead_guarded (hsup.mono hfree) hhead, fun options hoptions alt halt hne => ?_⟩
  intro v hv
  rw [List.mem_singleton.mp hv]
  exact inBody_anchored (hsub.mono hfree) hbody options hoptions alt halt hne

/-- The clauses of domains and ranges: a class of one of the two that a property relates. -/
theorem scoped_related {label : String} {property : PropertyExpr} {cls : ClassExpr} {head : Formula}
    {v : Variable} (hv : .var v = x ∨ .var v = y) (hproperty : property.AllTerms (Mentions source))
    (hcls : cls.AllTerms (Mentions source))
    (h : expressing (inHead cls (.var v)) p = (.ok head, p')) :
    Scoped source ⟨label, head, .atom (property.atom x y)⟩ := by
  have hadmitted : ∀ t, Mentions source t → Admitted source t := fun _ => admitted_of_mentions
  have hhead := expressing_eq_ok h
  have hvar : Admitted source (.var v) := .inl ⟨v, rfl, hv.imp_right .inl⟩
  refine .of_atoms (inHead_allTerms admitted_type admitted_made (hcls.mono hadmitted) hvar hhead)
    (inHead_guarded (hcls.mono hfree) hhead)
    (Formula.allAtoms_atom.mpr ((hproperty.mono hadmitted).atom admitted_x admitted_y)) rfl ?_
  intro w hw
  rw [List.mem_singleton.mp hw, List.flatMap_singleton,
    PropertyExpr.mem_vars_atom (hproperty.mono hfree)]
  rcases hv with hv | hv
  · exact .inl (by rw [← hv]; rfl)
  · exact .inr (by rw [← hv]; rfl)

theorem scoped_propertyInclusion {label : String} {sub sup : PropertyExpr}
    (hsub : sub.AllTerms (Mentions source)) (hsup : sup.AllTerms (Mentions source)) :
    Scoped source (propertyInclusion label sub sup) := by
  have hadmitted : ∀ t, Mentions source t → Admitted source t := fun _ => admitted_of_mentions
  refine .of_atoms (Formula.allAtoms_atom.mpr ((hsup.mono hadmitted).atom admitted_x admitted_y))
    (Formula.guarded_atom.mpr (List.Subset.refl _))
    (Formula.allAtoms_atom.mpr ((hsub.mono hadmitted).atom admitted_x admitted_y)) rfl ?_
  intro v hv
  rw [PropertyExpr.mem_vars_atom (hsup.mono hfree)] at hv
  rw [List.flatMap_singleton, PropertyExpr.mem_vars_atom (hsub.mono hfree)]
  exact hv

theorem scoped_transitivity {label : String} {p : Term} (hp : Mentions source p) :
    Scoped source ⟨label, .atom ⟨x, p, z⟩, .and [.atom ⟨x, p, y⟩, .atom ⟨y, p, z⟩]⟩ := by
  have hnamed : (PropertyExpr.named p).AllTerms (Mentions source) := hp
  have hadmitted := hnamed.mono fun _ => admitted_of_mentions
  have hfirst := hadmitted.atom admitted_x admitted_y
  have hsecond := hadmitted.atom admitted_y admitted_z
  have hhead := hadmitted.atom admitted_x admitted_z
  refine .of_atoms (Formula.allAtoms_atom.mpr hhead)
    (Formula.guarded_atom.mpr (List.Subset.refl _)) (by simpa using ⟨hfirst, hsecond⟩) rfl ?_
  intro v hv
  have hvars := @PropertyExpr.mem_vars_atom _ (hnamed.mono hfree)
  show v ∈ [⟨x, p, y⟩, ⟨y, p, z⟩].flatMap Triple.vars
  rw [List.flatMap_cons, List.flatMap_singleton, List.mem_append]
  rcases hvars.mp hv with hv | hv
  · exact .inl (hvars.mpr (.inl hv))
  · exact .inr (hvars.mpr (.inr hv))

/-- The clauses of an axiom are scoped. -/
theorem Axiom.clauses_scoped {a : Axiom} (ha : a.AllTerms (Mentions source)) {cs : List Clause}
    (h : a.clauses source p = (.ok cs, p')) : ∀ c ∈ cs, Scoped source c := by
  cases a with
  | subClassOf sub sup =>
    obtain ⟨hsub, hsup⟩ := ha
    obtain ⟨subClass, _, hsubClass, h⟩ := bind_eq_ok h
    obtain ⟨supClass, _, hsupClass, h⟩ := bind_eq_ok h
    obtain ⟨c, _, hc, h⟩ := bind_eq_ok h
    obtain ⟨rfl, rfl⟩ := pure_eq_ok h
    exact List.forall_mem_singleton.mpr
      (scoped_inclusion hfree (reading_class hsub hsubClass) (reading_class hsup hsupClass) hc)
  | equivalentClass left right =>
    obtain ⟨hleft, hright⟩ := ha
    obtain ⟨leftClass, _, hleftClass, h⟩ := bind_eq_ok h
    obtain ⟨rightClass, _, hrightClass, h⟩ := bind_eq_ok h
    obtain ⟨forward, _, hforward, h⟩ := bind_eq_ok h
    obtain ⟨backward, _, hbackward, h⟩ := bind_eq_ok h
    obtain ⟨rfl, rfl⟩ := pure_eq_ok h
    have hleftTerms := reading_class hleft hleftClass
    have hrightTerms := reading_class hright hrightClass
    exact Scoped.pair (scoped_inclusion hfree hleftTerms hrightTerms hforward)
      (scoped_inclusion hfree hrightTerms hleftTerms hbackward)
  | intersection cls members =>
    obtain ⟨hcls, _⟩ := ha
    obtain ⟨parts, _, hparts, h⟩ := bind_eq_ok h
    obtain ⟨forward, _, hforward, h⟩ := bind_eq_ok h
    obtain ⟨backward, _, hbackward, h⟩ := bind_eq_ok h
    obtain ⟨rfl, rfl⟩ := pure_eq_ok h
    have hwhole := ClassExpr.allTerms_intersectionOf.mpr (reading_members hparts)
    have hnamed : (ClassExpr.named cls).AllTerms (Mentions source) := hcls
    exact Scoped.pair (scoped_inclusion hfree hwhole hnamed hforward)
      (scoped_inclusion hfree hnamed hwhole hbackward)
  | union cls members =>
    obtain ⟨hcls, _⟩ := ha
    obtain ⟨parts, _, hparts, h⟩ := bind_eq_ok h
    obtain ⟨c, _, hc, h⟩ := bind_eq_ok h
    obtain ⟨rfl, rfl⟩ := pure_eq_ok h
    have hwhole := ClassExpr.allTerms_unionOf.mpr (reading_members hparts)
    have hnamed : (ClassExpr.named cls).AllTerms (Mentions source) := hcls
    exact List.forall_mem_singleton.mpr (scoped_inclusion hfree hwhole hnamed hc)
  | inverse p q =>
    obtain ⟨hp, hq⟩ := ha
    obtain ⟨rfl, rfl⟩ := pure_eq_ok h
    have hbackward : (PropertyExpr.inverseOf (.named p)).AllTerms (Mentions source) := hp
    have hforward : (PropertyExpr.named q).AllTerms (Mentions source) := hq
    exact Scoped.pair (scoped_propertyInclusion hfree hbackward hforward)
      (scoped_propertyInclusion hfree hforward hbackward)
  | transitive p =>
    obtain ⟨rfl, rfl⟩ := pure_eq_ok h
    exact List.forall_mem_singleton.mpr (scoped_transitivity hfree ha)
  | symmetric p =>
    obtain ⟨rfl, rfl⟩ := pure_eq_ok h
    have hforward : (PropertyExpr.named p).AllTerms (Mentions source) := ha
    have hbackward : (PropertyExpr.inverseOf (.named p)).AllTerms (Mentions source) := ha
    exact List.forall_mem_singleton.mpr (scoped_propertyInclusion hfree hforward hbackward)
  | domain p cls =>
    obtain ⟨hp, hcls⟩ := ha
    obtain ⟨property, _, hproperty, h⟩ := bind_eq_ok h
    obtain ⟨expression, _, hexpression, h⟩ := bind_eq_ok h
    obtain ⟨head, _, hhead, h⟩ := bind_eq_ok h
    obtain ⟨rfl, rfl⟩ := pure_eq_ok h
    exact List.forall_mem_singleton.mpr (scoped_related hfree (.inl rfl)
      (reading_property hp hproperty) (reading_class hcls hexpression) hhead)
  | range p cls =>
    obtain ⟨hp, hcls⟩ := ha
    obtain ⟨property, _, hproperty, h⟩ := bind_eq_ok h
    obtain ⟨expression, _, hexpression, h⟩ := bind_eq_ok h
    obtain ⟨head, _, hhead, h⟩ := bind_eq_ok h
    obtain ⟨rfl, rfl⟩ := pure_eq_ok h
    exact List.forall_mem_singleton.mpr (scoped_related hfree (.inr rfl)
      (reading_property hp hproperty) (reading_class hcls hexpression) hhead)
  | subPropertyOf sub sup =>
    obtain ⟨hsub, hsup⟩ := ha
    obtain ⟨subProperty, _, hsubProperty, h⟩ := bind_eq_ok h
    obtain ⟨supProperty, _, hsupProperty, h⟩ := bind_eq_ok h
    obtain ⟨rfl, rfl⟩ := pure_eq_ok h
    exact List.forall_mem_singleton.mpr (scoped_propertyInclusion hfree
      (reading_property hsub hsubProperty) (reading_property hsup hsupProperty))
  | equivalentProperty left right =>
    obtain ⟨hleft, hright⟩ := ha
    obtain ⟨leftProperty, _, hleftProperty, h⟩ := bind_eq_ok h
    obtain ⟨rightProperty, _, hrightProperty, h⟩ := bind_eq_ok h
    obtain ⟨rfl, rfl⟩ := pure_eq_ok h
    have hleftTerms := reading_property hleft hleftProperty
    have hrightTerms := reading_property hright hrightProperty
    exact Scoped.pair (scoped_propertyInclusion hfree hleftTerms hrightTerms)
      (scoped_propertyInclusion hfree hrightTerms hleftTerms)
  | inexpressible predicate cls =>
    obtain ⟨rfl, rfl⟩ := pure_eq_ok h
    exact fun c hc => absurd hc List.not_mem_nil

end Clauses

/-! ### Walks -/

/-- The clauses that were kept are scoped, and each has a body. -/
def Walk.Sound (source : σ) (w : Walk) : Prop :=
  ∀ c ∈ w.clauses, Scoped source c ∧ c.body.isEmptyConj = false

namespace Walk

theorem Sound.push {w : Walk} (h : w.Sound source) {c : Clause} (hc : Scoped source c) :
    (w.push c).Sound source := by
  unfold Walk.push
  split
  · exact h
  · split
    · exact h
    · rename_i hbody
      refine List.forall_mem_append.mpr ⟨h, List.forall_mem_singleton.mpr ⟨hc, ?_⟩⟩
      simpa using hbody

theorem Sound.foldl_push {w : Walk} (h : w.Sound source) {cs : List Clause}
    (hcs : ∀ c ∈ cs, Scoped source c) : (cs.foldl Walk.push w).Sound source := by
  induction cs generalizing w with
  | nil => exact h
  | cons c rest ih =>
    obtain ⟨hc, hrest⟩ := List.forall_mem_cons.mp hcs
    exact ih (h.push hc) hrest

variable (hfree : ∀ t, Mentions source t → t.IsIndividual)
include hfree

theorem Sound.add {w : Walk} (h : w.Sound source) {a : Axiom}
    (ha : a.AllTerms (Mentions source)) : (w.add source a).Sound source := by
  unfold Walk.add
  split
  · exact h
  · cases hclauses : a.clauses source w.progress with
    | mk result progress =>
      cases result with
      | ok cs =>
        have hkept : Sound source { w with progress } := h
        exact hkept.foldl_push (Axiom.clauses_scoped hfree ha hclauses)
      | error error => exact h

theorem Sound.foldl_add {w : Walk} (h : w.Sound source) {axioms : List Axiom}
    (haxioms : ∀ a ∈ axioms, a.AllTerms (Mentions source)) :
    (axioms.foldl (Walk.add source) w).Sound source := by
  induction axioms generalizing w with
  | nil => exact h
  | cons a rest ih =>
    obtain ⟨ha, hrest⟩ := List.forall_mem_cons.mp haxioms
    exact ih (h.add hfree ha) hrest

end Walk

/-! ### Rules -/

theorem mem_flatMap_vars {ts : List Triple} {v : Variable} :
    v ∈ ts.flatMap Triple.vars ↔ .var v ∈ ts.flatMap Triple.terms := by
  have hterm : ∀ u : Term, u.var? = some v ↔ u = .var v := by
    intro u
    cases u <;> simp [Term.var?]
  simp [List.mem_flatMap, Triple.vars, List.mem_filterMap, hterm]

/-- Making a rule of atoms turns each blank node into a variable. -/
theorem mem_vars_withoutBlank {ts : List Triple} {v : Variable} :
    v ∈ (ts.map (·.map HornRule.withoutBlank)).flatMap Triple.vars ↔
      .var v ∈ ts.flatMap Triple.terms ∨
        ∃ label, v = ⟨"_" ++ label⟩ ∧ .blank label ∈ ts.flatMap Triple.terms := by
  have hterms : (ts.map (·.map HornRule.withoutBlank)).flatMap Triple.terms =
      (ts.flatMap Triple.terms).map HornRule.withoutBlank := by
    rw [List.flatMap_map, List.map_flatMap]
    rfl
  rw [mem_flatMap_vars, hterms, List.mem_map]
  constructor
  · rintro ⟨u, hu, hv⟩
    cases u with
    | iri s | literal l => cases hv
    | blank label =>
      cases hv
      exact .inr ⟨label, rfl, hu⟩
    | var w =>
      cases hv
      exact .inl hu
  · rintro (hvar | ⟨label, rfl, hblank⟩)
    · exact ⟨_, hvar, rfl⟩
    · exact ⟨_, hblank, rfl⟩

theorem IsCompiled.ne_blank {v : Variable} (h : IsCompiled v) (label : String) :
    v ≠ ⟨"_" ++ label⟩ := by
  intro heq
  have hname := congrArg (fun w : Variable => w.name.toList.head?) heq
  rcases h with hx | hy | hz | ⟨n, rfl⟩
  · cases hx
    simp at hname
  · cases hy
    simp at hname
  · cases hz
    simp at hname
  · simp [madeVariable] at hname

/-- The rule has no existentials and no variables but the compiler's, and what it was made of
stands in it unchanged. -/
structure Faithful (rule : HornRule) (head body : List Triple) : Prop where
  existentials : rule.existentials = []
  compiled : ∀ v ∈ rule.bodyVariables ++ rule.headVariables, IsCompiled v
  body : rule.body = body
  head : rule.head = head

section Rules
variable {label : String} {head body : List Triple}

/-- A variable among the terms of a clause is the compiler's. -/
theorem isCompiled_of_admitted (hfree : ∀ t, Mentions source t → t.IsIndividual) {v : Variable}
    (h : Admitted source (.var v)) : IsCompiled v := by
  rcases h with ⟨w, hw, hcompiled⟩ | htype | hmentions
  · cases hw
    exact hcompiled
  · cases htype
  · cases hfree _ hmentions

/-- A rule has existentials if its head has a blank node that its body lacks. -/
theorem existentials_eq_nil_iff
    (hcompiled : ∀ v, .var v ∈ (body ++ head).flatMap Triple.terms → IsCompiled v)
    (hsafe : ∀ t ∈ head, t.vars ⊆ body.flatMap Triple.vars) :
    (HornRule.ofAtoms label body head).existentials = [] ↔
      ∀ b, .blank b ∈ head.flatMap Triple.terms → .blank b ∈ body.flatMap Triple.terms := by
  rw [List.flatMap_append] at hcompiled
  rw [HornRule.ofAtoms, HornRule.headOnly_eq_nil_iff]
  constructor
  · intro h b hb
    obtain ⟨t, ht, hvar⟩ := List.mem_flatMap.mp (mem_vars_withoutBlank.mpr (.inr ⟨b, rfl, hb⟩))
    rcases mem_vars_withoutBlank.mp (h t ht hvar) with hvar | ⟨c, hname, hblank⟩
    · exact absurd rfl ((hcompiled _ (List.mem_append_left _ hvar)).ne_blank b)
    · have htext := congrArg (fun v : Variable => v.name.toList) hname
      simp only [String.toList_append, List.append_cancel_left_eq] at htext
      rw [String.toList_injective htext]
      exact hblank
  · intro h t ht v hv
    rw [mem_vars_withoutBlank]
    rcases mem_vars_withoutBlank.mp (List.mem_flatMap.mpr ⟨t, ht, hv⟩) with
      hvar | ⟨b, hname, hblank⟩
    · obtain ⟨u, hu, hvar⟩ := List.mem_flatMap.mp (mem_flatMap_vars.mpr hvar)
      exact .inl (mem_flatMap_vars.mp (hsafe u hu hvar))
    · exact .inr ⟨b, hname, h b hblank⟩

theorem mem_variables_ofAtoms {v : Variable} :
    v ∈ (HornRule.ofAtoms label body head).bodyVariables ++
        (HornRule.ofAtoms label body head).headVariables ↔
      .var v ∈ (body ++ head).flatMap Triple.terms ∨
        ∃ b, v = ⟨"_" ++ b⟩ ∧ .blank b ∈ (body ++ head).flatMap Triple.terms := by
  rw [← mem_vars_withoutBlank, List.map_append, List.flatMap_append]
  rfl

/-- Without blank nodes the rule is what it was made of, and with one it has a variable of its
own. -/
theorem faithful_iff
    (hcompiled : ∀ v, .var v ∈ (body ++ head).flatMap Triple.terms → IsCompiled v)
    (hsafe : ∀ t ∈ head, t.vars ⊆ body.flatMap Triple.vars) :
    Faithful (.ofAtoms label body head) head body ↔
      ∀ u ∈ (body ++ head).flatMap Triple.terms, u.isBlank = false := by
  constructor
  · intro h u hu
    cases u with
    | iri s | literal l | var v => rfl
    | blank b =>
      exact absurd rfl ((h.compiled _ (mem_variables_ofAtoms.mpr (.inr ⟨b, rfl, hu⟩))).ne_blank b)
  · intro h
    have hatoms : ∀ t ∈ body ++ head, ∀ u ∈ t.terms, u.isBlank = false :=
      fun t ht u hu => h u (List.mem_flatMap.mpr ⟨t, ht, hu⟩)
    obtain ⟨hbody, hhead⟩ := List.forall_mem_append.mp hatoms
    refine ⟨(existentials_eq_nil_iff hcompiled hsafe).mpr fun b hb => ?_, fun v hv => ?_, ?_, ?_⟩
    · rw [List.flatMap_append] at h
      cases h _ (List.mem_append_right _ hb)
    · rcases mem_variables_ofAtoms.mp hv with hvar | ⟨b, _, hblank⟩
      · exact hcompiled v hvar
      · cases h _ hblank
    · rw [HornRule.ofAtoms_of_not_isBlank hbody hhead]
    · rw [HornRule.ofAtoms_of_not_isBlank hbody hhead]

end Rules

theorem compile_clauses (g : Graph) :
    (compile g).clauses = ((Axiom.all g).foldl (Walk.add g) {}).clauses := by
  rw [compile]

theorem compile_rules (g : Graph) :
    (compile g).rules = (compile g).clauses.flatMap fun c => c.normalize.rules := by
  rw [compile, Clause.normalizeAll]

/-- The clauses of an ontology are scoped, and each has a body. -/
theorem compile_sound {g : Graph} (hfree : ∀ u, Mentions g u → u.IsIndividual) :
    ∀ c ∈ (compile g).clauses, Scoped g c ∧ c.body.isEmptyConj = false := by
  have hempty : ({} : Walk).Sound g := fun c hc => absurd hc List.not_mem_nil
  rw [compile_clauses]
  exact hempty.foldl_add hfree Axiom.mentions_all

/-- **The rules of an ontology.** Each is made of a part of a clause, has a body, and has only the
compiler's variables, `rdf:type` and terms of the ontology before it is made. It has no
existentials if and only if its head has no blank node that its body lacks; and it keeps all
terms of the ontology, with no variables but the compiler's, if and only if none is blank. -/
theorem compiled_rules {g : Graph} (hg : VariableFree {t | t ∈ g.toList}) {rule : HornRule}
    (h : rule ∈ (compile g).rules) : rule.body ≠ [] ∧ ∃ clause ∈ (compile g).clauses,
      ∃ head body, .rule head body ∈ clause.candidates ∧ rule = .ofAtoms rule.label body head ∧
        (∀ u ∈ (body ++ head).flatMap Triple.terms, Admitted g u) ∧
        (rule.existentials = [] ↔
          ∀ b, .blank b ∈ head.flatMap Triple.terms → .blank b ∈ body.flatMap Triple.terms) ∧
        (Faithful rule head body ↔
          ∀ u ∈ (body ++ head).flatMap Triple.terms, u.isBlank = false) := by
  have hfree : ∀ u, Mentions g u → u.IsIndividual := fun _ => hg.isIndividual_of_mentions
  rw [compile_rules] at h
  obtain ⟨clause, hclause, hrule⟩ := List.mem_flatMap.mp h
  obtain ⟨label, head, body, hcandidate, rfl⟩ := Clause.mem_normalize_rules hrule
  obtain ⟨hscoped, hkept⟩ := compile_sound hfree clause hclause
  obtain ⟨hheadAtoms, hbodyAtoms⟩ := Clause.candidates_atoms hscoped.head hscoped.body hcandidate
  obtain ⟨vs, hguarded, hanchored⟩ := hscoped.safe
  have hsafe := Clause.candidates_guarded hkept hguarded hanchored hcandidate
  have hadmitted : ∀ u ∈ (body ++ head).flatMap Triple.terms, Admitted g u := by
    intro u hu
    obtain ⟨t, ht, hu⟩ := List.mem_flatMap.mp hu
    exact List.forall_mem_append.mpr ⟨hbodyAtoms, hheadAtoms⟩ t ht u hu
  have hcompiled : ∀ v, .var v ∈ (body ++ head).flatMap Triple.terms → IsCompiled v :=
    fun v hv => isCompiled_of_admitted hfree (hadmitted _ hv)
  have hbody : (HornRule.ofAtoms label body head).body ≠ [] := by
    simpa [HornRule.ofAtoms] using Clause.body_ne_nil_of_candidate hkept hcandidate
  exact ⟨hbody, clause, hclause, head, body, hcandidate, rfl, hadmitted,
    existentials_eq_nil_iff hcompiled hsafe, faithful_iff hcompiled hsafe⟩

/-- What those of `A` have as a `p` is a `B`, and `i` is one that has `j`. -/
def onlyB : Graph := .ofList
  [⟨.iri "A", .iri Vocabulary.Rdfs.subClassOf, .blank "r"⟩,
   ⟨.blank "r", .iri Vocabulary.Owl.onProperty, .iri "p"⟩,
   ⟨.blank "r", .iri Vocabulary.Owl.allValuesFrom, .iri "B"⟩,
   ⟨.iri "i", .iri Vocabulary.Rdf.type, .iri "A"⟩, ⟨.iri "i", .iri "p", .iri "j"⟩]

def onlyBRule : HornRule where
  label := "subClassOf(<A>, _:r)"
  body := [⟨x, .iri Vocabulary.Rdf.type, .iri "A"⟩, ⟨x, .iri "p", .var (madeVariable 1)⟩]
  head := [⟨.var (madeVariable 1), .iri Vocabulary.Rdf.type, .iri "B"⟩]

theorem onlyB_rules : (compile onlyB).rules = [onlyBRule] := by
  decide +kernel

theorem onlyB_variableFree : VariableFree {t | t ∈ onlyB.toList} := by
  have hall : ∀ t ∈ onlyB.toList, t.hasVariables = false := by decide +kernel
  exact hall

theorem compiled_rules_of_onlyB : (compile onlyB).rules = [onlyBRule] ∧
    ∃ clause ∈ (compile onlyB).clauses, ∃ head body, .rule head body ∈ clause.candidates ∧
      Faithful onlyBRule head body := by
  have hvariables : ∀ v ∈ onlyBRule.bodyVariables ++ onlyBRule.headVariables, IsCompiled v := by
    have hall : ∀ v ∈ onlyBRule.bodyVariables ++ onlyBRule.headVariables,
        .var v = x ∨ v = madeVariable 1 := by decide +kernel
    exact fun v hv => (hall v hv).imp_right fun hmade => .inr (.inr ⟨0, hmade⟩)
  obtain ⟨_, clause, hclause, head, body, hcandidate, hatoms, _, _, hfaithful⟩ :=
    compiled_rules onlyB_variableFree (onlyB_rules ▸ List.mem_singleton_self onlyBRule)
  refine ⟨onlyB_rules, clause, hclause, head, body, hcandidate, hfaithful.mpr fun u hu => ?_⟩
  cases u with
  | iri s | literal l | var v => rfl
  | blank b =>
    have hvar : ⟨"_" ++ b⟩ ∈ onlyBRule.bodyVariables ++ onlyBRule.headVariables := by
      rw [hatoms]
      exact mem_variables_ofAtoms.mpr (.inr ⟨b, rfl, hu⟩)
    exact absurd rfl ((hvariables _ hvar).ne_blank b)

/-- Those of `A` have `_:b` as a `p`, what something has as a `p` is one of `A`, and `i` is one. -/
def blankValue : Graph := .ofList
  [⟨.iri "A", .iri Vocabulary.Rdfs.subClassOf, .blank "r"⟩,
   ⟨.blank "r", .iri Vocabulary.Owl.onProperty, .iri "p"⟩,
   ⟨.blank "r", .iri Vocabulary.Owl.hasValue, .blank "b"⟩,
   ⟨.iri "p", .iri Vocabulary.Rdfs.range, .iri "A"⟩, ⟨.iri "i", .iri Vocabulary.Rdf.type, .iri "A"⟩]

/-- The value is a variable that only the head has. -/
def valueRule : HornRule where
  label := "subClassOf(<A>, _:r)"
  body := [⟨x, .iri Vocabulary.Rdf.type, .iri "A"⟩]
  head := [⟨x, .iri "p", .var ⟨"_b"⟩⟩]
  existentials := [⟨"_b"⟩]

def rangeRule : HornRule where
  label := "range(<p>, <A>)"
  body := [⟨x, .iri "p", y⟩]
  head := [⟨y, .iri Vocabulary.Rdf.type, .iri "A"⟩]

theorem blankValue_rules : (compile blankValue).rules = [valueRule, rangeRule] := by
  decide +kernel

theorem blankValue_variableFree : VariableFree {t | t ∈ blankValue.toList} := by
  have hall : ∀ t ∈ blankValue.toList, t.hasVariables = false := by decide +kernel
  exact hall

/-- The value `_:b` becomes a variable that only the head has. -/
theorem value_minted : VariableFree {t | t ∈ blankValue.toList} ∧
    ¬ ∀ rule ∈ (compile blankValue).rules, rule.existentials = [] ∧
      ∀ v ∈ rule.bodyVariables ++ rule.headVariables, IsCompiled v := by
  refine ⟨blankValue_variableFree, fun h => ?_⟩
  rw [blankValue_rules] at h
  cases (List.forall_mem_cons.mp h).1.1

end Ontology

end HornReasoner
