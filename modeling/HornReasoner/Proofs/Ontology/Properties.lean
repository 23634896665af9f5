import HornReasoner.Proofs.Ontology.Inclusion
import HornReasoner.Proofs.Ontology.Locality

/-! What property axioms mean.

Axioms of properties say how pairs of individuals go together (`PropertyLaw`). The clauses of such
an axiom are true in a set of triples without variables exactly if what it says holds there
(`Says.translation`); so its rules hold wherever the law does, and nowhere else if nothing of a
class in it was left out. -/
namespace HornReasoner

namespace PropertyExpr

/-- How many inverses stand in front of the name. -/
def inversions : PropertyExpr → Nat
  | named _ => 0
  | inverseOf inner => inner.inversions + 1

def name : PropertyExpr → Term
  | named p => p
  | inverseOf inner => inner.name

/-- An odd number of inversions swaps the individuals. -/
theorem relates_iff {M : Set Triple} (property : PropertyExpr) (s o : Term) :
    property.Relates M s o ↔ (if property.inversions % 2 = 0 then ⟨s, property.name, o⟩
      else ⟨o, property.name, s⟩) ∈ M := by
  induction property generalizing s o with
  | named p => rfl
  | inverseOf inner ih =>
    rw [Relates, ih o s, inversions, name]
    rcases Nat.mod_two_eq_zero_or_one inner.inversions with heven | hodd
    · rw [if_pos heven, if_neg (by omega)]
    · rw [if_neg (by omega), if_pos (by omega)]

end PropertyExpr

namespace Ontology

open TripleSource

/-- What an axiom of properties says. -/
inductive PropertyLaw where
  | inverse (p q : Term)
  | transitive (p : Term)
  | symmetric (p : Term)
  | included (sub sup : PropertyExpr)
  | equivalent (left right : PropertyExpr)
  | domain (property : PropertyExpr) (cls : ClassExpr)
  | range (property : PropertyExpr) (cls : ClassExpr)

namespace PropertyLaw

def HoldsIn (M : Set Triple) : PropertyLaw → Prop
  | inverse p q => ∀ a b, ⟨a, p, b⟩ ∈ M ↔ ⟨b, q, a⟩ ∈ M
  | transitive p => ∀ a b c, ⟨a, p, b⟩ ∈ M → ⟨b, p, c⟩ ∈ M → ⟨a, p, c⟩ ∈ M
  | symmetric p => ∀ a b, ⟨a, p, b⟩ ∈ M → ⟨b, p, a⟩ ∈ M
  | included sub sup => ∀ a b, sub.Relates M a b → sup.Relates M a b
  | equivalent left right => ∀ a b, left.Relates M a b ↔ right.Relates M a b
  | domain property cls => ∀ a b, property.Relates M a b → cls.Has M a
  | range property cls => ∀ a b, property.Relates M a b → cls.Has M b

/-- All properties, classes and values are IRIs or literals. -/
def Ground : PropertyLaw → Prop
  | inverse p q => p.isGround = true ∧ q.isGround = true
  | transitive p | symmetric p => p.isGround = true
  | included left right | equivalent left right => left.Ground ∧ right.Ground
  | domain property cls | range property cls => property.Ground ∧ cls.Ground

/-- The law is about properties only. -/
def ClassFree : PropertyLaw → Prop
  | domain _ _ | range _ _ => False
  | _ => True

end PropertyLaw

/-- The term stands for the property expression. -/
def ReadsProperty (g : Graph) (t : Term) (property : PropertyExpr) : Prop :=
  readProperty g t [] = (.ok property, [])

/-- The axiom says this of the properties, and classes, that its terms stand for. -/
inductive Says (g : Graph) : Axiom → PropertyLaw → Prop where
  | inverse (p q : Term) : Says g (.inverse p q) (.inverse p q)
  | transitive (p : Term) : Says g (.transitive p) (.transitive p)
  | symmetric (p : Term) : Says g (.symmetric p) (.symmetric p)
  | included {s t : Term} {sub sup : PropertyExpr} : ReadsProperty g s sub →
    ReadsProperty g t sup → Says g (.subPropertyOf s t) (.included sub sup)
  | equivalent {s t : Term} {left right : PropertyExpr} : ReadsProperty g s left →
    ReadsProperty g t right → Says g (.equivalentProperty s t) (.equivalent left right)
  | domain {s t : Term} {property : PropertyExpr} {cls : ClassExpr} : ReadsProperty g s property →
    Reads g t cls → Says g (.domain s t) (.domain property cls)
  | range {s t : Term} {property : PropertyExpr} {cls : ClassExpr} : ReadsProperty g s property →
    Reads g t cls → Says g (.range s t) (.range property cls)

/-! ### Clauses and their rules -/

/-- The clause is true whatever individuals its variables stand for. -/
def TrueIn (M : Set Triple) (c : Clause) : Prop :=
  ∀ σ : Variable → Term, (∀ v, (σ v).IsIndividual) → c.Holds (At M σ)

/-- The clause has no blank nodes and a body, with all variables of its rules' heads. -/
structure IsSafe (c : Clause) : Prop where
  head : c.head.AllAtoms fun t => ∀ u ∈ t.terms, u.isBlank = false
  body : c.body.AllAtoms fun t => ∀ u ∈ t.terms, u.isBlank = false
  hasBody : c.body.isEmptyConj = false
  guarded : ∀ head body, .rule head body ∈ c.candidates → ∀ t ∈ head,
    t.vars ⊆ body.flatMap Triple.vars

namespace Axiom

/-- The rules of an axiom alone, after `n` variables were made. -/
def rulesFrom (g : Graph) (n : Nat) (a : Axiom) : List HornRule :=
  (a.alone g n).clauses.flatMap fun c => c.normalize.rules

/-- What is reported of an axiom alone, and of what its clauses lose. -/
def diagnosticsFrom (g : Graph) (n : Nat) (a : Axiom) : List Diagnostic :=
  (a.alone g n).progress.diagnostics ++ (a.alone g n).clauses.flatMap fun c => c.normalize.dropped

end Axiom

section Rules
variable {g : Graph} {n : Nat} {a : Axiom} {M : Set Triple} {cs : List Clause} {p : Progress}

theorem alone_clauses (h : a.clauses g (Walk.startingAt n).progress = (.ok cs, p)) :
    (a.alone g n).clauses = cs.filter Clause.isProper := by
  rw [(alone_eq g n a).1, h]
  rfl

theorem rules_hold_of_trueIn (h : a.clauses g (Walk.startingAt n).progress = (.ok cs, p))
    (hsafe : ∀ c ∈ cs, IsSafe c) (htrue : ∀ c ∈ cs, TrueIn M c) :
    ∀ rule ∈ a.rulesFrom g n, rule.HoldsIn M := by
  intro rule hrule
  rw [Axiom.rulesFrom, alone_clauses h] at hrule
  obtain ⟨c, hc, hrule⟩ := List.mem_flatMap.mp hrule
  have hmem := List.mem_of_mem_filter hc
  exact rules_hold (hsafe c hmem).head (hsafe c hmem).body (htrue c hmem) rule hrule

/-- A clause that concludes nothing is true anyway; the others are kept. -/
theorem trueIn_of_rules_hold (h : a.clauses g (Walk.startingAt n).progress = (.ok cs, p))
    (hsafe : ∀ c ∈ cs, IsSafe c) (hsilent : a.diagnosticsFrom g n = [])
    (hrules : ∀ rule ∈ a.rulesFrom g n, rule.HoldsIn M) : ∀ c ∈ cs, TrueIn M c := by
  have hclauses := alone_clauses h
  obtain ⟨_, hdropped⟩ := List.append_eq_nil_iff.mp hsilent
  intro c hc σ hσ
  cases hhead : c.head.isEmptyConj with
  | true => exact fun _ => Formula.holds_of_isEmptyConj hhead
  | false =>
    have hkept : c ∈ (a.alone g n).clauses := by
      rw [hclauses]
      exact List.mem_filter.mpr ⟨hc, by rw [Clause.isProper, hhead, (hsafe c hc).hasBody]; rfl⟩
    exact holds_of_rules_hold (hsafe c hc).head (hsafe c hc).body (hsafe c hc).guarded
      (List.flatMap_eq_nil_iff.mp hdropped c hkept)
      (fun rule hrule => hrules rule (List.mem_flatMap.mpr ⟨c, hkept, hrule⟩)) hσ

end Rules

/-! ### Clauses over two individuals -/

/-- `x` stands for the first individual, `y` for the second one, any other variable for the
third one. -/
def standing (a b c : Term) (v : Variable) : Term :=
  if v = ⟨"x"⟩ then a else if v = ⟨"y"⟩ then b else c

theorem standing_individual {a b c : Term} (ha : a.IsIndividual) (hb : b.IsIndividual)
    (hc : c.IsIndividual) (v : Variable) : (standing a b c v).IsIndividual := by
  unfold standing
  repeat' split
  · exact ha
  · exact hb
  · exact hc

theorem standing_x (a b c : Term) : standing a b c ⟨"x"⟩ = a := if_pos rfl

theorem standing_y (a b c : Term) : standing a b c ⟨"y"⟩ = b := by
  simp [standing]

theorem standing_z (a b c : Term) : standing a b c ⟨"z"⟩ = c := by
  simp [standing]

section Clauses
variable {M : Set Triple} {P Q : PropertyExpr} {label : String} {σ : Variable → Term}

theorem individuals_of_relates (hM : VariableFree M) {a b : Term} (h : P.Relates M a b) :
    a.IsIndividual ∧ b.IsIndividual := by
  have hback : (PropertyExpr.inverseOf P).Relates M b a := h
  exact ⟨hback.individual hM, h.individual hM⟩

theorem holds_related (hP : P.Ground) : (Formula.atom (P.atom x y)).Holds (At M σ) ↔
    P.Relates M (σ ⟨"x"⟩) (σ ⟨"y"⟩) := by
  rw [Formula.holds_atom, At, PropertyExpr.assign_atom hP, PropertyExpr.atom_mem_iff]
  rfl

theorem related_not_isBlank (hP : P.Ground) : (Formula.atom (P.atom x y)).AllAtoms fun t =>
    ∀ u ∈ t.terms, u.isBlank = false :=
  Formula.allAtoms_atom.mpr ((hP.allTerms.mono fun _ => isBlank_of_isGround).atom rfl rfl)

theorem mem_vars_related (hP : P.Ground) {v : Variable} :
    v ∈ (P.atom x y).vars ↔ v = ⟨"x"⟩ ∨ v = ⟨"y"⟩ := by
  rw [PropertyExpr.mem_vars_atom (hP.allTerms.mono fun _ => Term.isIndividual_of_isGround)]
  simp [x, y, Term.var?, eq_comm]

/-- A clause about two related individuals is safe if its head is about them. -/
theorem isSafe_related (hP : P.Ground) {head : Formula}
    (hhead : head.AllAtoms fun t => ∀ u ∈ t.terms, u.isBlank = false) {vs : List Variable}
    (hvs : ∀ v ∈ vs, v = ⟨"x"⟩ ∨ v = ⟨"y"⟩) (hguarded : head.Guarded vs) :
    IsSafe ⟨label, head, .atom (P.atom x y)⟩ where
  head := hhead
  body := related_not_isBlank hP
  hasBody := rfl
  guarded _ _ hcandidate := by
    refine Clause.candidates_guarded rfl hguarded (fun options hoptions alt halt _ v hv => ?_)
      hcandidate
    cases hoptions
    rw [List.mem_singleton.mp halt, List.flatMap_singleton]
    exact (mem_vars_related hP).mpr (hvs v hv)

/-! ### Inclusions of properties -/

theorem isSafe_propertyInclusion (hP : P.Ground) (hQ : Q.Ground) :
    IsSafe (propertyInclusion label P Q) := by
  have hguarded : (Formula.atom (Q.atom x y)).Guarded [⟨"x"⟩, ⟨"y"⟩] := by
    refine Formula.guarded_atom.mpr fun v hv => ?_
    simpa using (mem_vars_related hQ).mp hv
  exact isSafe_related hP (related_not_isBlank hQ) (by simp) hguarded

theorem trueIn_propertyInclusion (hP : P.Ground) (hQ : Q.Ground) (hM : VariableFree M) :
    TrueIn M (propertyInclusion label P Q) ↔ ∀ a b, P.Relates M a b → Q.Relates M a b := by
  have hholds : ∀ σ, (propertyInclusion label P Q).Holds (At M σ) ↔
      (P.Relates M (σ ⟨"x"⟩) (σ ⟨"y"⟩) → Q.Relates M (σ ⟨"x"⟩) (σ ⟨"y"⟩)) :=
    fun σ => imp_congr (holds_related hP) (holds_related hQ)
  constructor
  · intro htrue a b hab
    obtain ⟨ha, hb⟩ := individuals_of_relates hM hab
    have hboth := (hholds _).mp (htrue _ (standing_individual ha hb hb))
    rw [standing_x, standing_y] at hboth
    exact hboth hab
  · exact fun h σ _ => (hholds σ).mpr (h _ _)

/-! ### Transitivity -/

theorem isSafe_transitive {p : Term} (hp : p.isGround = true) :
    IsSafe ⟨label, .atom ⟨x, p, z⟩, .and [.atom ⟨x, p, y⟩, .atom ⟨y, p, z⟩]⟩ := by
  have hnamed : (PropertyExpr.named p).Ground := hp
  have hatom : ∀ v w : Variable, ∀ u ∈ (⟨.var v, p, .var w⟩ : Triple).terms, u.isBlank = false :=
    fun _ _ => (hnamed.allTerms.mono fun _ => isBlank_of_isGround).atom rfl rfl
  refine ⟨Formula.allAtoms_atom.mpr (hatom _ _), ?_, rfl, ?_⟩
  · simpa using ⟨hatom _ _, hatom _ _⟩
  · intro head body hcandidate t ht v hv
    obtain ⟨rfl, rfl⟩ : head = [⟨x, p, z⟩] ∧ body = [⟨x, p, y⟩, ⟨y, p, z⟩] := by
      simpa using List.mem_singleton.mp hcandidate
    rw [List.mem_singleton.mp ht, Triple.mem_vars] at hv
    rw [List.mem_flatMap]
    have hnone : p.var? = none := (Term.isIndividual_of_isGround hp).var?
    rcases hv with hx | hpredicate | hz
    · exact ⟨_, List.mem_cons_self .., Triple.mem_vars.mpr (.inl hx)⟩
    · cases hnone.symm.trans hpredicate
    · exact ⟨⟨y, p, z⟩, by simp, Triple.mem_vars.mpr (.inr (.inr hz))⟩

theorem trueIn_transitive {p : Term} (hp : p.isGround = true) (hM : VariableFree M) :
    TrueIn M ⟨label, .atom ⟨x, p, z⟩, .and [.atom ⟨x, p, y⟩, .atom ⟨y, p, z⟩]⟩ ↔
      (PropertyLaw.transitive p).HoldsIn M := by
  have hassign : ∀ (σ : Variable → Term) (v w : Variable),
      At M σ ⟨.var v, p, .var w⟩ ↔ ⟨σ v, p, σ w⟩ ∈ M := by
    intro σ v w
    show (⟨σ v, p.assign σ, σ w⟩ : Triple) ∈ M ↔ _
    rw [Term.assign_of_isGround hp]
  have hholds : ∀ σ, (⟨label, .atom ⟨x, p, z⟩, .and [.atom ⟨x, p, y⟩, .atom ⟨y, p, z⟩]⟩ :
      Clause).Holds (At M σ) ↔ (⟨σ ⟨"x"⟩, p, σ ⟨"y"⟩⟩ ∈ M → ⟨σ ⟨"y"⟩, p, σ ⟨"z"⟩⟩ ∈ M →
        ⟨σ ⟨"x"⟩, p, σ ⟨"z"⟩⟩ ∈ M) := by
    intro σ
    simp [Clause.Holds, x, y, z, hassign]
  constructor
  · intro htrue a b c hab hbc
    obtain ⟨ha, hb⟩ := hM.individuals hab
    have hall := (hholds _).mp (htrue _ (standing_individual ha hb (hM.individuals hbc).2))
    rw [standing_x, standing_y, standing_z] at hall
    exact hall hab hbc
  · exact fun h σ _ => (hholds σ).mpr (h _ _ _)

/-! ### Domains and ranges -/

section Membership
variable {C : ClassExpr} {v : Variable} {head : Formula} {c c' : Context}

theorem isSafe_membership (hP : P.Ground) (hC : C.Ground) (hv : v = ⟨"x"⟩ ∨ v = ⟨"y"⟩)
    (h : inHead C (.var v) c = (.ok head, c')) : IsSafe ⟨label, head, .atom (P.atom x y)⟩ := by
  have hexpresses := inHead_expresses hC (known_xy hv c) h
  have hguarded : head.Guarded [v] :=
    inHead_guarded (hC.allTerms.mono fun _ => Term.isIndividual_of_isGround) h
  exact isSafe_related hP (hexpresses.atoms.mono fun t ht => ht.1) (by simpa) hguarded

/-- A pair whose member is no instance makes the clause false for some values of the made
variables. -/
theorem trueIn_membership (hP : P.Ground) (hC : C.Ground) (hM : VariableFree M)
    (hv : v = ⟨"x"⟩ ∨ v = ⟨"y"⟩) (h : inHead C (.var v) c = (.ok head, c')) :
    TrueIn M ⟨label, head, .atom (P.atom x y)⟩ ↔
      ∀ a b, P.Relates M a b → C.Has M (standing a b b v) := by
  have hexpresses := inHead_expresses hC (known_xy hv c) h
  constructor
  · intro htrue a b hab
    by_contra hnot
    obtain ⟨ha, hb⟩ := individuals_of_relates hM hab
    obtain ⟨τ, hτ, hfalse⟩ := hexpresses.complete M _ hM (standing_individual ha hb hb) hnot
    have hx : τ ⟨"x"⟩ = a := (hτ.agree _ (known_xy (.inl rfl) c).not_between).trans
      (standing_x a b b)
    have hy : τ ⟨"y"⟩ = b := (hτ.agree _ (known_xy (.inr rfl) c).not_between).trans
      (standing_y a b b)
    exact hfalse (htrue τ hτ.individuals ((holds_related hP).mpr (by rwa [hx, hy])))
  · intro hlaw σ _ hbody
    by_contra hfalse
    have hhas := hlaw _ _ ((holds_related hP).mp hbody)
    refine hexpresses.sound M σ hfalse ?_
    rcases hv with rfl | rfl
    · rwa [standing_x] at hhas
    · rwa [standing_y] at hhas

end Membership

end Clauses

/-! ### Laws -/

section Laws
variable {g : Graph} {a : Axiom} {law : PropertyLaw} {n : Nat}

theorem reading_property_iff {t : Term} {property : PropertyExpr} {p p' : Progress}
    (hp : p.reading = []) :
    reading (readProperty g t) p = (.ok property, p') ↔ ReadsProperty g t property ∧ p' = p := by
  obtain ⟨nodes, hnodes⟩ := exists_sameDescriptions g
  exact reading_eq_ok_iff (agree_readProperty hnodes t) hp

section Readings
variable {s t : Term} {p : Progress}

theorem clauses_subPropertyOf {sub sup : PropertyExpr} (hp : p.reading = [])
    (hsub : ReadsProperty g s sub) (hsup : ReadsProperty g t sup) :
    (Axiom.subPropertyOf s t).clauses g p =
      (.ok [propertyInclusion (Axiom.subPropertyOf s t).label sub sup], p) := by
  refine (bind_of_ok ((reading_property_iff hp).mpr ⟨hsub, rfl⟩)).trans ?_
  exact bind_of_ok ((reading_property_iff hp).mpr ⟨hsup, rfl⟩)

theorem clauses_equivalentProperty {left right : PropertyExpr} (hp : p.reading = [])
    (hleft : ReadsProperty g s left) (hright : ReadsProperty g t right) :
    (Axiom.equivalentProperty s t).clauses g p =
      (.ok [propertyInclusion (Axiom.equivalentProperty s t).label left right,
        propertyInclusion (Axiom.equivalentProperty t s).label right left], p) := by
  refine (bind_of_ok ((reading_property_iff hp).mpr ⟨hleft, rfl⟩)).trans ?_
  exact bind_of_ok ((reading_property_iff hp).mpr ⟨hright, rfl⟩)

/-- Domains and ranges conclude that an individual is an instance, unless the class has no form
as a head. -/
theorem concluding_cases (label : String) (property : PropertyExpr) (cls : ClassExpr) (v : Variable)
    (p : Progress) {act : Compiling (List Clause)}
    (hact : act p = (expressing (inHead cls (.var v)) >>= fun head =>
      pure [(⟨label, head, .atom (property.atom x y)⟩ : Clause)]) p) :
    (∃ head p' c', inHead cls (.var v) p.context = (.ok head, c') ∧
        act p = (.ok [⟨label, head, .atom (property.atom x y)⟩], p')) ∨
      ∃ e p', act p = (.error e, p') := by
  rw [hact]
  cases hhead : expressing (inHead cls (.var v)) p with
  | mk result p' =>
    cases result with
    | ok head => exact .inl ⟨head, p', _, expressing_eq_ok hhead, bind_of_ok hhead⟩
    | error e => exact .inr ⟨e, p', bind_of_error hhead⟩

theorem clauses_domain {property : PropertyExpr} {cls : ClassExpr} (hp : p.reading = [])
    (hproperty : ReadsProperty g s property) (hcls : Reads g t cls) :
    (Axiom.domain s t).clauses g p = (expressing (inHead cls x) >>= fun head =>
      pure [⟨(Axiom.domain s t).label, head, .atom (property.atom x y)⟩]) p :=
  (bind_of_ok ((reading_property_iff hp).mpr ⟨hproperty, rfl⟩)).trans
    (bind_of_ok ((reading_class_iff hp).mpr ⟨hcls, rfl⟩))

theorem clauses_range {property : PropertyExpr} {cls : ClassExpr} (hp : p.reading = [])
    (hproperty : ReadsProperty g s property) (hcls : Reads g t cls) :
    (Axiom.range s t).clauses g p = (expressing (inHead cls y) >>= fun head =>
      pure [⟨(Axiom.range s t).label, head, .atom (property.atom x y)⟩]) p :=
  (bind_of_ok ((reading_property_iff hp).mpr ⟨hproperty, rfl⟩)).trans
    (bind_of_ok ((reading_class_iff hp).mpr ⟨hcls, rfl⟩))

end Readings

theorem Says.remarks_ok (h : Says g a law) (cs : List Clause) :
    a.remarks (.ok cs) = cs.filterMap refusal? := by
  cases h <;> rfl

theorem Says.remarks_error (h : Says g a law) (e : OntologyError) :
    a.remarks (.error e) = [⟨a.label, e.message⟩] := by
  cases h <;> rfl

/-- The clauses are safe, and true exactly where the law holds. -/
structure Translates (law : PropertyLaw) (cs : List Clause) : Prop where
  safe : ∀ c ∈ cs, IsSafe c
  trueIn_iff : ∀ M, VariableFree M → ((∀ c ∈ cs, TrueIn M c) ↔ law.HoldsIn M)
  not_dropped : law.ClassFree → ∀ c ∈ cs, c.normalize.dropped = []

namespace Translates
variable {P Q : PropertyExpr} {label label' : String}

theorem of_inclusion (hP : P.Ground) (hQ : Q.Ground)
    (hlaw : ∀ M, (∀ a b, P.Relates M a b → Q.Relates M a b) ↔ law.HoldsIn M) :
    Translates law [propertyInclusion label P Q] where
  safe := List.forall_mem_singleton.mpr (isSafe_propertyInclusion hP hQ)
  trueIn_iff M hM := by
    rw [List.forall_mem_singleton, trueIn_propertyInclusion hP hQ hM, hlaw]
  not_dropped _ := List.forall_mem_singleton.mpr rfl

theorem of_inclusions (hP : P.Ground) (hQ : Q.Ground)
    (hlaw : ∀ M, (∀ a b, P.Relates M a b ↔ Q.Relates M a b) ↔ law.HoldsIn M) :
    Translates law [propertyInclusion label P Q, propertyInclusion label' Q P] where
  safe := List.forall_mem_cons.mpr ⟨isSafe_propertyInclusion hP hQ,
    List.forall_mem_singleton.mpr (isSafe_propertyInclusion hQ hP)⟩
  trueIn_iff M hM := by
    rw [List.forall_mem_cons, List.forall_mem_singleton, trueIn_propertyInclusion hP hQ hM,
      trueIn_propertyInclusion hQ hP hM, ← hlaw]
    exact ⟨fun h a b => ⟨h.1 a b, h.2 a b⟩,
      fun h => ⟨fun a b => (h a b).mp, fun a b => (h a b).mpr⟩⟩
  not_dropped _ := List.forall_mem_cons.mpr ⟨rfl, List.forall_mem_singleton.mpr rfl⟩

theorem of_transitive {p : Term} (hp : p.isGround = true) : Translates (.transitive p)
    [⟨label, .atom ⟨x, p, z⟩, .and [.atom ⟨x, p, y⟩, .atom ⟨y, p, z⟩]⟩] where
  safe := List.forall_mem_singleton.mpr (isSafe_transitive hp)
  trueIn_iff M hM := by
    rw [List.forall_mem_singleton, trueIn_transitive hp hM]
  not_dropped _ := List.forall_mem_singleton.mpr rfl

theorem of_membership {C : ClassExpr} {v : Variable} {head : Formula} {c c' : Context}
    (hground : P.Ground ∧ C.Ground) (hv : v = ⟨"x"⟩ ∨ v = ⟨"y"⟩)
    (h : inHead C (.var v) c = (.ok head, c')) (hclass : ¬ law.ClassFree)
    (hlaw : ∀ M, (∀ a b, P.Relates M a b → C.Has M (standing a b b v)) ↔ law.HoldsIn M) :
    Translates law [⟨label, head, .atom (P.atom x y)⟩] where
  safe := List.forall_mem_singleton.mpr (isSafe_membership hground.1 hground.2 hv h)
  trueIn_iff M hM := by
    rw [List.forall_mem_singleton, trueIn_membership hground.1 hground.2 hM hv h, hlaw]
  not_dropped hfree := absurd hfree hclass

end Translates

/-- **The clauses of a property axiom** are true exactly where its law holds; it has none only if
its class has no form as a head. -/
theorem Says.translation (h : Says g a law) (hground : law.Ground) (n : Nat) :
    (∃ cs p, a.clauses g (Walk.startingAt n).progress = (.ok cs, p) ∧ Translates law cs) ∨
      ¬ law.ClassFree ∧ ∃ e p, a.clauses g (Walk.startingAt n).progress = (.error e, p) := by
  have hstart : (Walk.startingAt n).progress.reading = [] := rfl
  cases h with
  | inverse p q =>
    have hp : (PropertyExpr.inverseOf (.named p)).Ground := hground.1
    have hq : (PropertyExpr.named q).Ground := hground.2
    exact .inl ⟨_, _, rfl, .of_inclusions hp hq fun _ => forall_comm⟩
  | transitive p => exact .inl ⟨_, _, rfl, .of_transitive hground⟩
  | symmetric p =>
    have hto : (PropertyExpr.named p).Ground := hground
    have hback : (PropertyExpr.inverseOf (.named p)).Ground := hground
    exact .inl ⟨_, _, rfl, .of_inclusion hto hback fun _ => Iff.rfl⟩
  | included hsub hsup =>
    exact .inl ⟨_, _, clauses_subPropertyOf hstart hsub hsup,
      .of_inclusion hground.1 hground.2 fun _ => Iff.rfl⟩
  | equivalent hleft hright =>
    exact .inl ⟨_, _, clauses_equivalentProperty hstart hleft hright,
      .of_inclusions hground.1 hground.2 fun _ => Iff.rfl⟩
  | domain hproperty hcls =>
    rcases concluding_cases _ _ _ ⟨"x"⟩ _ (clauses_domain hstart hproperty hcls) with
      ⟨head, p, c', hhead, hclauses⟩ | herror
    · refine .inl ⟨_, p, hclauses, .of_membership hground (.inl rfl) hhead id fun M => ?_⟩
      simp only [standing_x]
      rfl
    · exact .inr ⟨id, herror⟩
  | range hproperty hcls =>
    rcases concluding_cases _ _ _ ⟨"y"⟩ _ (clauses_range hstart hproperty hcls) with
      ⟨head, p, c', hhead, hclauses⟩ | herror
    · refine .inl ⟨_, p, hclauses, .of_membership hground (.inr rfl) hhead id fun M => ?_⟩
      simp only [standing_y]
      rfl
    · exact .inr ⟨id, herror⟩

/-- Of a property axiom without a class nothing is reported. -/
theorem Says.silent (h : Says g a law) (hground : law.Ground) (hfree : law.ClassFree) (n : Nat) :
    a.diagnosticsFrom g n = [] := by
  rcases h.translation hground n with ⟨cs, p, hclauses, htranslates⟩ | ⟨hclass, _⟩
  · have hown := alone_clauses hclauses
    have hreported : (a.alone g n).progress.diagnostics = cs.filterMap refusal? := by
      rw [(alone_eq g n a).2, hclauses, h.remarks_ok]
    have hrefused : cs.filterMap refusal? = [] := by
      refine List.filterMap_eq_nil_iff.mpr fun c hc => ?_
      rw [refusal?, (htranslates.safe c hc).hasBody, Bool.and_false]
      rfl
    have hdropped : ((cs.filter Clause.isProper).flatMap fun c => c.normalize.dropped) = [] :=
      List.flatMap_eq_nil_iff.mpr fun c hc =>
        htranslates.not_dropped hfree c (List.mem_of_mem_filter hc)
    rw [Axiom.diagnosticsFrom, hown, hreported, hrefused, hdropped, List.append_nil]
  · exact absurd hfree hclass

/-- The rules of an axiom stand together among those of the ontology. -/
theorem rulesFrom_infix (ha : a ∈ Axiom.all g) : ∃ n, a.rulesFrom g n <:+: (compile g).rules := by
  obtain ⟨before, after, hall⟩ := List.append_of_mem ha
  obtain ⟨n, first, last, halones⟩ := exists_alone g 0 before a after
  refine ⟨n, first.flatMap fun own => own.clauses.flatMap fun c => c.normalize.rules,
    last.flatMap fun own => own.clauses.flatMap fun c => c.normalize.rules, ?_⟩
  rw [compile_rules, compile_alones, hall, halones, List.flatMap_assoc, List.flatMap_append,
    List.flatMap_cons, List.append_assoc]
  rfl

end Laws

/-- **Property axioms are translated exactly.** Whatever was compiled before it, the rules of an
axiom hold in a set of triples without variables if its law does, and only then if the law is
about properties only or nothing was reported of the axiom. They stand among the rules of the
ontology; and nested inverses count by their parity. -/
theorem property_axiom_exact {g : Graph} {a : Axiom} {law : PropertyLaw} (h : Says g a law)
    (hground : law.Ground) {M : Set Triple} (hM : VariableFree M) :
    (∀ n, (law.HoldsIn M → ∀ rule ∈ a.rulesFrom g n, rule.HoldsIn M) ∧
      (law.ClassFree ∨ a.diagnosticsFrom g n = [] →
        (∀ rule ∈ a.rulesFrom g n, rule.HoldsIn M) → law.HoldsIn M)) ∧
    (a ∈ Axiom.all g → ∃ n, a.rulesFrom g n <:+: (compile g).rules) ∧
    ∀ (property : PropertyExpr) (s o : Term), property.Relates M s o ↔
      (if property.inversions % 2 = 0 then ⟨s, property.name, o⟩
        else ⟨o, property.name, s⟩) ∈ M := by
  refine ⟨fun n => ?_, rulesFrom_infix, fun property => property.relates_iff⟩
  rcases h.translation hground n with ⟨cs, p, hclauses, htranslates⟩ | ⟨hclass, e, p, hfailed⟩
  · have hiff := htranslates.trueIn_iff M hM
    constructor
    · intro hlaw
      exact rules_hold_of_trueIn hclauses htranslates.safe (hiff.mpr hlaw)
    · intro hquiet hrules
      have hsilent : a.diagnosticsFrom g n = [] :=
        hquiet.elim (fun hfree => h.silent hground hfree n) id
      exact hiff.mp (trueIn_of_rules_hold hclauses htranslates.safe hsilent hrules)
  · obtain ⟨hclauses, hdiagnostics⟩ := alone_eq g n a
    rw [hfailed] at hclauses hdiagnostics
    constructor
    · intro _ rule hrule
      rw [Axiom.rulesFrom, hclauses] at hrule
      cases hrule
    · rintro (hfree | hsilent)
      · exact absurd hfree hclass
      · rw [Axiom.diagnosticsFrom, hdiagnostics, h.remarks_error] at hsilent
        cases hsilent

/-- Being a child is a way of having a parent, and children of parents have persons as children
only. -/
def family : Graph := .ofList
  [⟨.iri "childOf", .iri Vocabulary.Rdfs.subPropertyOf, .blank "i"⟩,
   ⟨.blank "i", .iri Vocabulary.Owl.inverseOf, .iri "parentOf"⟩,
   ⟨.iri "parentOf", .iri Vocabulary.Rdfs.range, .blank "r"⟩,
   ⟨.blank "r", .iri Vocabulary.Owl.onProperty, .iri "parentOf"⟩,
   ⟨.blank "r", .iri Vocabulary.Owl.allValuesFrom, .iri "Person"⟩]

/-- `b` has the child `a`, and `a` has the child `c`, of whom nothing else is known. -/
def familyFacts : Set Triple :=
  {⟨.iri "a", .iri "childOf", .iri "b"⟩, ⟨.iri "b", .iri "parentOf", .iri "a"⟩,
    ⟨.iri "a", .iri "parentOf", .iri "c"⟩}

/-- The rules of the inclusion hold, and one of the range does not. -/
theorem property_axiom_exact_of_family :
    (∀ rule ∈ (Axiom.subPropertyOf (.iri "childOf") (.blank "i")).rulesFrom family 0,
      rule.HoldsIn familyFacts) ∧
    ∃ rule ∈ (Axiom.range (.iri "parentOf") (.blank "r")).rulesFrom family 0,
      ¬ rule.HoldsIn familyFacts := by
  have hfree : VariableFree familyFacts := by
    rintro t (rfl | rfl | rfl) <;> rfl
  have hincluded : Says family (.subPropertyOf (.iri "childOf") (.blank "i"))
      (.included (.named (.iri "childOf")) (.inverseOf (.named (.iri "parentOf")))) :=
    .included rfl rfl
  have hrange : Says family (.range (.iri "parentOf") (.blank "r"))
      (.range (.named (.iri "parentOf"))
        (.allValuesFrom (.named (.iri "parentOf")) (.named (.iri "Person")))) :=
    .range rfl rfl
  obtain ⟨hto, _⟩ := (property_axiom_exact hincluded ⟨rfl, rfl⟩ hfree).1 0
  obtain ⟨_, hfrom⟩ := (property_axiom_exact hrange ⟨rfl, rfl, rfl⟩ hfree).1 0
  have hsilent : (Axiom.range (.iri "parentOf") (.blank "r")).diagnosticsFrom family 0 = [] := by
    decide +kernel
  constructor
  · refine hto fun a b hab => ?_
    obtain ⟨rfl, rfl⟩ : a = .iri "a" ∧ b = .iri "b" := by
      simpa [PropertyExpr.Relates, familyFacts] using hab
    simp [PropertyExpr.Relates, familyFacts]
  · by_contra hall
    have hlaw := hfrom (.inr hsilent) (by simpa using hall) (.iri "b") (.iri "a") (by
      simp [PropertyExpr.Relates, familyFacts])
    simp [ClassExpr.Has, PropertyExpr.Relates, familyFacts, Vocabulary.Rdf.type] at hlaw

end Ontology

end HornReasoner
