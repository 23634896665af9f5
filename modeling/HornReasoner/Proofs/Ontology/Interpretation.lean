import HornReasoner.Ontology.ClassExpr
import HornReasoner.Proofs.Rdf.Renaming
import HornReasoner.Proofs.Rule.Matching
import Mathlib.Data.Set.Card

/-! Sets of triples as interpretations.

The individuals are the terms other than variables, the instances of a class those with a
type triple, and a property relates subjects to objects. A rule holds if every assignment
of individuals that makes its body true can be changed on the existential variables so that
it makes the head true. -/
namespace HornReasoner

/-- The term is an individual, no variable. -/
def Term.IsIndividual (x : Term) : Prop := x.isVariable = false

theorem Term.IsIndividual.var? {x : Term} (h : x.IsIndividual) : x.var? = none := by
  cases x with
  | iri s | literal l | blank s => rfl
  | var v => cases h

theorem Term.isIndividual_of_isGround {x : Term} (h : x.isGround = true) : x.IsIndividual := by
  cases x with
  | iri s | literal l => rfl
  | blank s | var v => cases h

/-- No triple of the set has a variable. -/
def VariableFree (M : Set Triple) : Prop := ∀ t ∈ M, t.hasVariables = false

theorem VariableFree.isIndividual {M : Set Triple} (h : VariableFree M) {t : Triple} (ht : t ∈ M)
    {x : Term} (hx : x ∈ t.terms) : x.IsIndividual := by
  simpa [Term.IsIndividual] using List.any_eq_false.mp (h t ht) x hx

theorem VariableFree.individuals {M : Set Triple} (h : VariableFree M) {t : Triple} (ht : t ∈ M) :
    t.subject.IsIndividual ∧ t.object.IsIndividual :=
  ⟨h.isIndividual ht (by simp [Triple.terms]), h.isIndividual ht (by simp [Triple.terms])⟩

/-- An instance has no variables if the values of the pattern's variables are individuals. -/
theorem Triple.hasVariables_assign_eq_false_iff {σ : Variable → Term} {atom : Triple} :
    (atom.assign σ).hasVariables = false ↔ ∀ v ∈ atom.vars, (σ v).IsIndividual := by
  rw [hasVariables, List.any_eq_false]
  constructor
  · intro h v hv
    obtain ⟨x, hx, hvar⟩ := List.mem_filterMap.mp hv
    cases x with
    | var w =>
      cases hvar
      exact Bool.eq_false_iff.mpr (h (σ v) (mem_terms_map.mpr ⟨_, hx, rfl⟩))
    | iri s | literal l | blank s => cases hvar
  · intro h x hx
    obtain ⟨y, hy, rfl⟩ := mem_terms_map.mp hx
    cases y with
    | var v => exact Bool.eq_false_iff.mp (h v (List.mem_filterMap.mpr ⟨_, hy, rfl⟩))
    | iri s | literal l | blank s => exact Bool.false_ne_true

/-! ### Properties -/

namespace PropertyExpr

/-- The property relates two individuals; an inverse relates them the other way. -/
def Relates (M : Set Triple) : PropertyExpr → Term → Term → Prop
  | named p, s, o => ⟨s, p, o⟩ ∈ M
  | inverseOf inner, s, o => inner.Relates M o s

/-- The property is named by an IRI or a literal. -/
def Ground : PropertyExpr → Prop
  | named p => p.isGround = true
  | inverseOf inner => inner.Ground

/-- The name in the property satisfies `P`. -/
def AllTerms (P : Term → Prop) : PropertyExpr → Prop
  | named p => P p
  | inverseOf inner => inner.AllTerms P

variable {M : Set Triple} {property : PropertyExpr} {s o : Term} {P Q : Term → Prop}

theorem AllTerms.mono (h : property.AllTerms P) (hPQ : ∀ x, P x → Q x) : property.AllTerms Q := by
  induction property with
  | named p => exact hPQ p h
  | inverseOf inner ih => exact ih h

theorem Ground.allTerms (h : property.Ground) : property.AllTerms (·.isGround = true) := by
  induction property with
  | named p => exact h
  | inverseOf inner ih => exact ih h

theorem atom_mem_iff : property.atom s o ∈ M ↔ property.Relates M s o := by
  induction property generalizing s o with
  | named p => rfl
  | inverseOf inner ih => exact ih

theorem Relates.individual (h : property.Relates M s o) (hM : VariableFree M) : o.IsIndividual := by
  have hboth : s.IsIndividual ∧ o.IsIndividual := by
    induction property generalizing s o with
    | named p => exact hM.individuals h
    | inverseOf inner ih => exact (ih h).symm
  exact hboth.2

theorem terms_atom (hp : property.AllTerms P) {x : Term} (hx : x ∈ (property.atom s o).terms) :
    x = s ∨ x = o ∨ P x := by
  induction property generalizing s o with
  | named p =>
    simp only [atom, Triple.terms, List.mem_cons, List.not_mem_nil, or_false] at hx
    rcases hx with rfl | rfl | rfl
    · exact .inl rfl
    · exact .inr (.inr hp)
    · exact .inr (.inl rfl)
  | inverseOf inner ih =>
    rcases ih hp hx with rfl | rfl | hname
    · exact .inr (.inl rfl)
    · exact .inl rfl
    · exact .inr (.inr hname)

theorem AllTerms.atom (hp : property.AllTerms P) (hs : P s) (ho : P o) :
    ∀ x ∈ (property.atom s o).terms, P x := by
  intro x hx
  rcases terms_atom hp hx with rfl | rfl | hname
  · exact hs
  · exact ho
  · exact hname

end PropertyExpr

theorem Term.assign_of_isGround {σ : Variable → Term} {x : Term} (hx : x.isGround = true) :
    x.assign σ = x := by
  cases x with
  | iri s | literal l => rfl
  | blank s | var v => cases hx

theorem PropertyExpr.assign_atom {σ : Variable → Term} {property : PropertyExpr}
    (hp : property.Ground) {s o : Term} :
    (property.atom s o).assign σ = property.atom (s.assign σ) (o.assign σ) := by
  induction property generalizing s o with
  | named p => simp [atom, Triple.assign, Triple.map, Term.assign_of_isGround hp]
  | inverseOf inner ih => exact ih hp

theorem PropertyExpr.mem_vars_atom {property : PropertyExpr}
    (hp : property.AllTerms Term.IsIndividual) {s o : Term} {v : Variable} :
    v ∈ (property.atom s o).vars ↔ s.var? = some v ∨ o.var? = some v := by
  induction property generalizing s o with
  | named p => simp [atom, Triple.mem_vars, Term.IsIndividual.var? hp]
  | inverseOf inner ih => exact (ih hp).trans or_comm

/-! ### Classes -/

/-- As many as the restriction asks for. -/
def CardinalityKind.Admits : CardinalityKind → ℕ∞ → Nat → Prop
  | min, k, n => n ≤ k
  | max, k, n => k ≤ n
  | exact, k, n => k = n

namespace ClassExpr

mutual

/-- The individual is an instance of the class. -/
def Has (M : Set Triple) : ClassExpr → Term → Prop
  | named c, x => ⟨x, .iri Vocabulary.Rdf.type, c⟩ ∈ M
  | thing, _ => True
  | nothing, _ => False
  | intersectionOf parts, x => AllHave M parts x
  | unionOf parts, x => SomeHas M parts x
  | complementOf inner, x => ¬ inner.Has M x
  | oneOf items, x => x ∈ items
  | someValuesFrom property filler, x => ∃ y, property.Relates M x y ∧ filler.Has M y
  | allValuesFrom property filler, x => ∀ y, property.Relates M x y → filler.Has M y
  | hasValue property value, x => property.Relates M x value
  | cardinality kind property value, x => ∃ n l, value = .literal l ∧ l.lexical = toString n ∧
    kind.Admits {y | property.Relates M x y}.encard n

def AllHave (M : Set Triple) : List ClassExpr → Term → Prop
  | [], _ => True
  | part :: rest, x => part.Has M x ∧ AllHave M rest x

def SomeHas (M : Set Triple) : List ClassExpr → Term → Prop
  | [], _ => False
  | part :: rest, x => part.Has M x ∨ SomeHas M rest x

end

mutual

/-- All classes, properties and values are IRIs or literals. -/
def Ground : ClassExpr → Prop
  | named c => c.isGround = true
  | thing => True
  | nothing => True
  | intersectionOf parts => AllGround parts
  | unionOf parts => AllGround parts
  | complementOf inner => inner.Ground
  | oneOf items => ∀ item ∈ items, item.isGround = true
  | someValuesFrom property filler => property.Ground ∧ filler.Ground
  | allValuesFrom property filler => property.Ground ∧ filler.Ground
  | hasValue property value => property.Ground ∧ value.isGround = true
  | cardinality _ property value => property.Ground ∧ value.isGround = true

def AllGround : List ClassExpr → Prop
  | [] => True
  | part :: rest => part.Ground ∧ AllGround rest

end

mutual

/-- All classes, properties and values in the class expression satisfy `P`. -/
def AllTerms (P : Term → Prop) : ClassExpr → Prop
  | named c => P c
  | thing => True
  | nothing => True
  | intersectionOf parts => EachAllTerms P parts
  | unionOf parts => EachAllTerms P parts
  | complementOf inner => inner.AllTerms P
  | oneOf items => ∀ item ∈ items, P item
  | someValuesFrom property filler => property.AllTerms P ∧ filler.AllTerms P
  | allValuesFrom property filler => property.AllTerms P ∧ filler.AllTerms P
  | hasValue property value => property.AllTerms P ∧ P value
  | cardinality _ property value => property.AllTerms P ∧ P value

def EachAllTerms (P : Term → Prop) : List ClassExpr → Prop
  | [] => True
  | part :: rest => part.AllTerms P ∧ EachAllTerms P rest

end

variable {M : Set Triple} {x : Term} {parts : List ClassExpr} {P Q : Term → Prop}

theorem allHave_iff : AllHave M parts x ↔ ∀ part ∈ parts, part.Has M x := by
  induction parts with
  | nil => simp [AllHave]
  | cons part rest ih => simp [AllHave, ih]

theorem someHas_iff : SomeHas M parts x ↔ ∃ part ∈ parts, part.Has M x := by
  induction parts with
  | nil => simp [SomeHas]
  | cons part rest ih => simp [SomeHas, ih]

theorem allGround_iff : AllGround parts ↔ ∀ part ∈ parts, part.Ground := by
  induction parts with
  | nil => simp [AllGround]
  | cons part rest ih => simp [AllGround, ih]

theorem has_intersectionOf :
    (intersectionOf parts).Has M x ↔ ∀ part ∈ parts, part.Has M x := by
  rw [Has, allHave_iff]

theorem has_unionOf : (unionOf parts).Has M x ↔ ∃ part ∈ parts, part.Has M x := by
  rw [Has, someHas_iff]

theorem ground_intersectionOf : (intersectionOf parts).Ground ↔ ∀ part ∈ parts, part.Ground := by
  rw [Ground, allGround_iff]

theorem ground_unionOf : (unionOf parts).Ground ↔ ∀ part ∈ parts, part.Ground := by
  rw [Ground, allGround_iff]

theorem eachAllTerms_iff : EachAllTerms P parts ↔ ∀ part ∈ parts, part.AllTerms P := by
  induction parts with
  | nil => simp [EachAllTerms]
  | cons part rest ih => simp [EachAllTerms, ih]

theorem allTerms_intersectionOf :
    (intersectionOf parts).AllTerms P ↔ ∀ part ∈ parts, part.AllTerms P := by
  rw [AllTerms, eachAllTerms_iff]

theorem allTerms_unionOf :
    (unionOf parts).AllTerms P ↔ ∀ part ∈ parts, part.AllTerms P := by
  rw [AllTerms, eachAllTerms_iff]

/-- Class expressions are built from class expressions and lists of them. -/
@[elab_as_elim, induction_eliminator]
theorem induction {motive : ClassExpr → Prop} (named : ∀ c, motive (named c))
    (thing : motive thing) (nothing : motive nothing)
    (intersectionOf : ∀ parts, (∀ part ∈ parts, motive part) → motive (intersectionOf parts))
    (unionOf : ∀ parts, (∀ part ∈ parts, motive part) → motive (unionOf parts))
    (complementOf : ∀ inner, motive inner → motive (complementOf inner))
    (oneOf : ∀ items, motive (oneOf items))
    (someValuesFrom : ∀ property filler, motive filler → motive (someValuesFrom property filler))
    (allValuesFrom : ∀ property filler, motive filler → motive (allValuesFrom property filler))
    (hasValue : ∀ property value, motive (hasValue property value))
    (cardinality : ∀ kind property value, motive (cardinality kind property value)) :
    ∀ cls, motive cls := by
  intro cls
  exact cls.rec (motive_2 := fun parts => ∀ part ∈ parts, motive part) named thing nothing
    intersectionOf unionOf complementOf oneOf someValuesFrom allValuesFrom hasValue cardinality
    (by simp) (fun part rest hpart hrest => by simpa using ⟨hpart, hrest⟩)

theorem AllTerms.mono {cls : ClassExpr} (h : cls.AllTerms P) (hPQ : ∀ x, P x → Q x) :
    cls.AllTerms Q := by
  induction cls with
  | named c => exact hPQ c h
  | thing | nothing => trivial
  | intersectionOf parts ih =>
    exact allTerms_intersectionOf.mpr fun part hpart =>
      ih part hpart (allTerms_intersectionOf.mp h part hpart)
  | unionOf parts ih =>
    exact allTerms_unionOf.mpr fun part hpart =>
      ih part hpart (allTerms_unionOf.mp h part hpart)
  | complementOf inner ih => exact ih h
  | oneOf items => exact fun item hitem => hPQ item (h item hitem)
  | someValuesFrom property filler ih | allValuesFrom property filler ih =>
    exact ⟨h.1.mono hPQ, ih h.2⟩
  | hasValue property value | cardinality kind property value =>
    exact ⟨h.1.mono hPQ, hPQ value h.2⟩

theorem Ground.allTerms {cls : ClassExpr} (h : cls.Ground) : cls.AllTerms (·.isGround = true) := by
  induction cls with
  | named c => exact h
  | thing | nothing => trivial
  | intersectionOf parts ih =>
    exact allTerms_intersectionOf.mpr fun part hpart =>
      ih part hpart (ground_intersectionOf.mp h part hpart)
  | unionOf parts ih =>
    exact allTerms_unionOf.mpr fun part hpart => ih part hpart (ground_unionOf.mp h part hpart)
  | complementOf inner ih => exact ih h
  | oneOf items => exact h
  | someValuesFrom property filler ih | allValuesFrom property filler ih =>
    exact ⟨h.1.allTerms, ih h.2⟩
  | hasValue property value | cardinality kind property value => exact ⟨h.1.allTerms, h.2⟩

end ClassExpr

/-- Every instance of `sub` is one of `sup`. -/
def ClassExpr.IncludedIn (M : Set Triple) (sub sup : ClassExpr) : Prop :=
  ∀ x : Term, x.IsIndividual → sub.Has M x → sup.Has M x

/-! ### Rules -/

/-- The rule holds: an assignment of individuals that makes its body true makes its head
true as well, with other individuals for the existential variables. -/
def HornRule.HoldsIn (M : Set Triple) (rule : HornRule) : Prop :=
  ∀ σ : Variable → Term, (∀ v, (σ v).IsIndividual) → (∀ atom ∈ rule.body, atom.assign σ ∈ M) →
    ∃ τ : Variable → Term, (∀ v, (τ v).IsIndividual) ∧ (∀ v, v ∉ rule.existentials → τ v = σ v) ∧
      ∀ atom ∈ rule.head, atom.assign τ ∈ M

end HornReasoner
