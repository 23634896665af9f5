import HornReasoner.Ontology.Membership
import HornReasoner.Proofs.Formula.Horn
import HornReasoner.Proofs.Ontology.Interpretation
import HornReasoner.Proofs.Rdf.Renaming

/-! Membership as formulas.

What `inBody` and `inHead` make of a class expression says that the value of a variable is
an instance of it. The variables made on the way are free in the formula: a body is true for
some of their values if the individual is an instance, a head false for some if it is none
(`Expresses`). Both sides share one account, over what is said of a formula. -/
namespace HornReasoner.Ontology

/-! ### What the translations do -/

theorem bind_eq_ok {α β σ : Type} {act : ExceptT OntologyError (StateM σ) α}
    {f : α → ExceptT OntologyError (StateM σ) β} {c c' : σ} {b : β}
    (h : (act >>= f) c = (.ok b, c')) : ∃ a next, act c = (.ok a, next) ∧ f a next = (.ok b, c') := by
  change (ExceptT.bindCont f (act c).1) (act c).2 = _ at h
  cases hact : act c with
  | mk result next =>
    rw [hact] at h
    cases result with
    | ok a => exact ⟨a, next, rfl, h⟩
    | error e => cases h

theorem bind_of_ok {α β σ : Type} {act : ExceptT OntologyError (StateM σ) α}
    {f : α → ExceptT OntologyError (StateM σ) β} {c next : σ} {a : α}
    (h : act c = (.ok a, next)) : (act >>= f) c = f a next := by
  show ExceptT.bindCont f (act c).1 (act c).2 = _
  rw [h]
  rfl

theorem bind_of_error {α β σ : Type} {act : ExceptT OntologyError (StateM σ) α}
    {f : α → ExceptT OntologyError (StateM σ) β} {c next : σ} {e : OntologyError}
    (h : act c = (.error e, next)) : (act >>= f) c = (.error e, next) := by
  show ExceptT.bindCont f (act c).1 (act c).2 = _
  rw [h]
  rfl

theorem pure_eq_ok {α σ : Type} {a b : α} {c c' : σ}
    (h : (pure a : ExceptT OntologyError (StateM σ) α) c = (.ok b, c')) : a = b ∧ c = c' := by
  cases h
  exact ⟨rfl, rfl⟩

/-- The `n`th variable that is made. -/
def madeVariable (n : Nat) : Variable := ⟨"v" ++ toString n⟩

/-- The context after one more variable. -/
def Context.next (c : Context) : Context := { c with nextVariable := c.nextVariable + 1 }

theorem freshVariable_eq_ok {c c' : Context} {y : Term} (h : freshVariable c = (.ok y, c')) :
    y = .var (madeVariable (c.nextVariable + 1)) ∧ c' = c.next := by
  cases h
  exact ⟨rfl, rfl⟩

/-- The parts of a list in turn, each from the context that the one before it left. -/
inductive InTurn (R : ClassExpr → Context → Context → Formula → Prop) :
    List ClassExpr → Context → Context → List Formula → Prop where
  | nil (c : Context) : InTurn R [] c c []
  | cons {part : ClassExpr} {rest : List ClassExpr} {c next c' : Context} {f : Formula}
      {fs : List Formula} : R part c next f → InTurn R rest next c' fs →
      InTurn R (part :: rest) c c' (f :: fs)

theorem InTurn.forall {R : ClassExpr → Context → Context → Formula → Prop} {P : Formula → Prop}
    {parts : List ClassExpr} {c c' : Context} {fs : List Formula} (h : InTurn R parts c c' fs)
    (himp : ∀ part ∈ parts, ∀ c c' f, R part c c' f → P f) : ∀ f ∈ fs, P f := by
  induction h with
  | nil c => simp
  | cons hpart _ ih =>
    obtain ⟨hfirst, hrest⟩ := List.forall_mem_cons.mp himp
    exact List.forall_mem_cons.mpr ⟨hfirst _ _ _ hpart, ih hrest⟩

section Cases
variable {parts : List ClassExpr} {property : PropertyExpr} {filler : ClassExpr} {x : Term}
  {c c' : Context} {f : Formula} {fs : List Formula}

theorem allInBody_eq_ok (h : allInBody parts x c = (.ok fs, c')) :
    InTurn (fun part c c' f => inBody part x c = (.ok f, c')) parts c c' fs := by
  induction parts generalizing c fs with
  | nil =>
    obtain ⟨rfl, rfl⟩ := pure_eq_ok h
    exact .nil c
  | cons part rest ih =>
    rw [allInBody] at h
    obtain ⟨f, next, hpart, h⟩ := bind_eq_ok h
    obtain ⟨others, last, hrest, h⟩ := bind_eq_ok h
    obtain ⟨rfl, rfl⟩ := pure_eq_ok h
    exact .cons hpart (ih hrest)

theorem allInHead_eq_ok (h : allInHead parts x c = (.ok fs, c')) :
    InTurn (fun part c c' f => inHead part x c = (.ok f, c')) parts c c' fs := by
  induction parts generalizing c fs with
  | nil =>
    obtain ⟨rfl, rfl⟩ := pure_eq_ok h
    exact .nil c
  | cons part rest ih =>
    rw [allInHead] at h
    obtain ⟨f, next, hpart, h⟩ := bind_eq_ok h
    obtain ⟨others, last, hrest, h⟩ := bind_eq_ok h
    obtain ⟨rfl, rfl⟩ := pure_eq_ok h
    exact .cons hpart (ih hrest)

theorem inBody_intersectionOf (h : inBody (.intersectionOf parts) x c = (.ok f, c')) : ∃ fs,
    InTurn (fun part c c' f => inBody part x c = (.ok f, c')) parts c c' fs ∧ f = .and fs := by
  rw [inBody] at h
  obtain ⟨fs, next, hparts, h⟩ := bind_eq_ok h
  obtain ⟨rfl, rfl⟩ := pure_eq_ok h
  exact ⟨fs, allInBody_eq_ok hparts, rfl⟩

theorem inBody_unionOf (h : inBody (.unionOf parts) x c = (.ok f, c')) : ∃ fs,
    InTurn (fun part c c' f => inBody part x c = (.ok f, c')) parts c c' fs ∧ f = .or fs := by
  rw [inBody] at h
  obtain ⟨fs, next, hparts, h⟩ := bind_eq_ok h
  obtain ⟨rfl, rfl⟩ := pure_eq_ok h
  exact ⟨fs, allInBody_eq_ok hparts, rfl⟩

theorem inHead_intersectionOf (h : inHead (.intersectionOf parts) x c = (.ok f, c')) : ∃ fs,
    InTurn (fun part c c' f => inHead part x c = (.ok f, c')) parts c c' fs ∧ f = .and fs := by
  rw [inHead] at h
  obtain ⟨fs, next, hparts, h⟩ := bind_eq_ok h
  obtain ⟨rfl, rfl⟩ := pure_eq_ok h
  exact ⟨fs, allInHead_eq_ok hparts, rfl⟩

theorem inHead_unionOf (h : inHead (.unionOf parts) x c = (.ok f, c')) : ∃ fs,
    InTurn (fun part c c' f => inHead part x c = (.ok f, c')) parts c c' fs ∧ f = .or fs := by
  rw [inHead] at h
  obtain ⟨fs, next, hparts, h⟩ := bind_eq_ok h
  obtain ⟨rfl, rfl⟩ := pure_eq_ok h
  exact ⟨fs, allInHead_eq_ok hparts, rfl⟩

theorem inBody_someValuesFrom (h : inBody (.someValuesFrom property filler) x c = (.ok f, c')) :
    ∃ g, inBody filler (.var (madeVariable (c.nextVariable + 1))) c.next = (.ok g, c') ∧
      f = .and [.atom (property.atom x (.var (madeVariable (c.nextVariable + 1)))), g] := by
  rw [inBody] at h
  obtain ⟨y, next, hy, h⟩ := bind_eq_ok h
  obtain ⟨rfl, rfl⟩ := freshVariable_eq_ok hy
  obtain ⟨g, last, hfiller, h⟩ := bind_eq_ok h
  obtain ⟨rfl, rfl⟩ := pure_eq_ok h
  exact ⟨g, hfiller, rfl⟩

theorem inHead_allValuesFrom (h : inHead (.allValuesFrom property filler) x c = (.ok f, c')) :
    ∃ g, inHead filler (.var (madeVariable (c.nextVariable + 1))) c.next = (.ok g, c') ∧
      f = .implies (.atom (property.atom x (.var (madeVariable (c.nextVariable + 1))))) g := by
  rw [inHead] at h
  obtain ⟨y, next, hy, h⟩ := bind_eq_ok h
  obtain ⟨rfl, rfl⟩ := freshVariable_eq_ok hy
  obtain ⟨g, last, hfiller, h⟩ := bind_eq_ok h
  obtain ⟨rfl, rfl⟩ := pure_eq_ok h
  exact ⟨g, hfiller, rfl⟩

end Cases

/-! ### Made variables -/

theorem madeVariable_injective {m n : Nat} (h : madeVariable m = madeVariable n) : m = n := by
  have hname := congrArg (fun v : Variable => v.name.toList) h
  simp only [madeVariable, String.toList_append] at hname
  exact toString_injective (String.toList_injective (List.append_cancel_left hname))

/-- The variables made from one context to another. -/
def Between (c c' : Context) (v : Variable) : Prop :=
  ∃ k, c.nextVariable < k ∧ k ≤ c'.nextVariable ∧ v = madeVariable k

/-- The variable is none of those still to be made. -/
def Known (c : Context) (v : Variable) : Prop := ∀ k, c.nextVariable < k → v ≠ madeVariable k

theorem Known.not_between {c c' : Context} {v : Variable} (h : Known c v) : ¬ Between c c' v :=
  fun ⟨k, hk, _, heq⟩ => h k hk heq

theorem Known.mono {c c' : Context} {v : Variable} (h : Known c v)
    (hle : c.nextVariable ≤ c'.nextVariable) : Known c' v := fun k hk => h k (by omega)

theorem Between.known {c c' : Context} {v : Variable} (h : Between c c' v) : Known c' v := by
  obtain ⟨k, _, hle, rfl⟩ := h
  intro j hj heq
  have hkj := madeVariable_injective heq
  omega

theorem Between.widen {c c' first last : Context} {v : Variable} (h : Between c c' v)
    (hfirst : first.nextVariable ≤ c.nextVariable) (hlast : c'.nextVariable ≤ last.nextVariable) :
    Between first last v := by
  obtain ⟨k, hk, hle, rfl⟩ := h
  exact ⟨k, by omega, by omega, rfl⟩

theorem between_made {c c' : Context} (h : c.next.nextVariable ≤ c'.nextVariable) :
    Between c c' (madeVariable (c.nextVariable + 1)) :=
  ⟨c.nextVariable + 1, by omega, h, rfl⟩

theorem known_made (c : Context) : Known c.next (madeVariable (c.nextVariable + 1)) := by
  intro k hk heq
  have hlt : c.nextVariable + 1 < k := hk
  have hkj := madeVariable_injective heq
  omega

/-! ### Assignments -/

/-- A triple is true under an assignment if its instance is in the set. -/
def At (M : Set Triple) (σ : Variable → Term) (t : Triple) : Prop := t.assign σ ∈ M

/-- The assignments agree on everything known before, and the values are individuals. -/
structure Extends (c c' : Context) (σ τ : Variable → Term) : Prop where
  individuals : ∀ v, (τ v).IsIndividual
  agree : ∀ v, ¬ Between c c' v → τ v = σ v

/-- A triple without blank nodes whose variables are `v` and those made in between. -/
def Within (v : Variable) (c c' : Context) (t : Triple) : Prop :=
  (∀ x ∈ t.terms, x.isBlank = false) ∧ ∀ w ∈ t.vars, w = v ∨ Between c c' w

/-- The formula says of the variable that its value is an instance of the class. If `sign`
is affirmative, the made variables are witnesses, and if it is negative, counterexamples. -/
structure Expresses (sign : Prop → Prop) (cls : ClassExpr) (v : Variable) (c c' : Context)
    (f : Formula) : Prop where
  grows : c.nextVariable ≤ c'.nextVariable
  atoms : f.AllAtoms (Within v c c')
  sound : ∀ M σ, sign (f.Holds (At M σ)) → sign (cls.Has M (σ v))
  complete : ∀ M σ, VariableFree M → (∀ w, (σ w).IsIndividual) → sign (cls.Has M (σ v)) →
    ∃ τ, Extends c c' σ τ ∧ sign (f.Holds (At M τ))

theorem Within.mono {v w : Variable} {c c' first last : Context} {t : Triple} (h : Within v c c' t)
    (hfirst : first.nextVariable ≤ c.nextVariable) (hlast : c'.nextVariable ≤ last.nextVariable)
    (hv : v = w ∨ Between first last v) : Within w first last t := by
  refine ⟨h.1, fun u hu => ?_⟩
  rcases h.2 u hu with rfl | hu
  · exact hv
  · exact .inr (hu.widen hfirst hlast)

theorem Extends.refl {c c' : Context} {σ : Variable → Term} (h : ∀ v, (σ v).IsIndividual) :
    Extends c c' σ σ := ⟨h, fun _ _ => rfl⟩

theorem Extends.trans {c next c' : Context} {σ τ υ : Variable → Term} (h : Extends c next σ τ)
    (h' : Extends next c' τ υ) (hfirst : c.nextVariable ≤ next.nextVariable)
    (hlast : next.nextVariable ≤ c'.nextVariable) : Extends c c' σ υ where
  individuals := h'.individuals
  agree v hv := (h'.agree v fun hb => hv (hb.widen hfirst (Nat.le_refl _))).trans
    (h.agree v fun hb => hv (hb.widen (Nat.le_refl _) hlast))

/-- The next made variable may stand for any individual. -/
theorem exists_extends_made (c : Context) {σ : Variable → Term} (hσ : ∀ w, (σ w).IsIndividual)
    {x : Term} (hx : x.IsIndividual) :
    ∃ τ, Extends c c.next σ τ ∧ τ (madeVariable (c.nextVariable + 1)) = x := by
  refine ⟨fun w => if w = madeVariable (c.nextVariable + 1) then x else σ w, ⟨fun w => ?_,
    fun w hw => if_neg fun heq => hw ?_⟩, if_pos rfl⟩
  · by_cases hmade : w = madeVariable (c.nextVariable + 1)
    · rw [if_pos hmade]
      exact hx
    · rw [if_neg hmade]
      exact hσ w
  · rw [heq]
    exact between_made (Nat.le_refl _)

/-- Variables made later change nothing of a formula. -/
theorem Extends.holds_iff {c next c' : Context} {σ τ : Variable → Term} (h : Extends next c' σ τ)
    {v : Variable} (hv : Known next v) {f : Formula} (hf : f.AllAtoms (Within v c next))
    (M : Set Triple) : f.Holds (At M τ) ↔ f.Holds (At M σ) := by
  refine Formula.holds_congr (hf.mono fun t ht => ?_)
  have hassign : t.assign τ = t.assign σ := by
    refine Triple.assign_congr fun w hw => h.agree w ?_
    rcases ht.2 w hw with rfl | hw
    · exact hv.not_between
    · exact hw.known.not_between
  rw [At, At, hassign]

namespace Expresses
variable {sign : Prop → Prop} {v : Variable} {c c' : Context}

/-! ### One formula for each construct -/

/-- A formula without made variables. -/
theorem of_iff {cls : ClassExpr} {f : Formula} (hf : f.AllAtoms (Within v c c))
    (h : ∀ M σ, f.Holds (At M σ) ↔ cls.Has M (σ v)) : Expresses sign cls v c c f where
  grows := Nat.le_refl _
  atoms := hf
  sound M σ hsign := by
    rw [← h M σ]
    exact hsign
  complete M σ _ hσ hsign := by
    refine ⟨σ, .refl hσ, ?_⟩
    rw [h M σ]
    exact hsign

end Expresses

section Parts
variable {sign : Prop → Prop} {v : Variable} {c c' : Context} {parts : List ClassExpr}
  {fs : List Formula}

theorem InTurn.expresses {R : ClassExpr → Context → Context → Formula → Prop}
    (h : InTurn R parts c c' fs) (hv : Known c v)
    (hparts : ∀ part ∈ parts, ∀ c c' f, Known c v → R part c c' f → Expresses sign part v c c' f) :
    InTurn (fun part => Expresses sign part v) parts c c' fs := by
  induction h with
  | nil c => exact .nil c
  | cons hpart _ ih =>
    obtain ⟨hfirst, hrest⟩ := List.forall_mem_cons.mp hparts
    have hexpresses := hfirst _ _ _ hv hpart
    exact .cons hexpresses (ih (hv.mono hexpresses.grows) hrest)

theorem InTurn.grows (h : InTurn (fun part => Expresses sign part v) parts c c' fs) :
    c.nextVariable ≤ c'.nextVariable := by
  induction h with
  | nil c => exact Nat.le_refl _
  | cons hpart _ ih => exact hpart.grows.trans ih

theorem InTurn.atoms (h : InTurn (fun part => Expresses sign part v) parts c c' fs) :
    ∀ f ∈ fs, f.AllAtoms (Within v c c') := by
  induction h with
  | nil c => simp
  | cons hpart hrest ih =>
    refine List.forall_mem_cons.mpr ⟨hpart.atoms.mono fun t ht => ?_, fun f hf => ?_⟩
    · exact ht.mono (Nat.le_refl _) hrest.grows (.inl rfl)
    · exact (ih f hf).mono fun t ht => ht.mono hpart.grows (Nat.le_refl _) (.inl rfl)

theorem InTurn.sound_all (h : InTurn (fun part => Expresses sign part v) parts c c' fs)
    {M : Set Triple} {σ : Variable → Term} (hall : ∀ f ∈ fs, sign (f.Holds (At M σ))) :
    ∀ part ∈ parts, sign (part.Has M (σ v)) := by
  induction h with
  | nil c => simp
  | cons hpart _ ih =>
    obtain ⟨hfirst, hrest⟩ := List.forall_mem_cons.mp hall
    exact List.forall_mem_cons.mpr ⟨hpart.sound M σ hfirst, ih hrest⟩

theorem InTurn.sound_one (h : InTurn (fun part => Expresses sign part v) parts c c' fs)
    {M : Set Triple} {σ : Variable → Term} (hone : ∃ f ∈ fs, sign (f.Holds (At M σ))) :
    ∃ part ∈ parts, sign (part.Has M (σ v)) := by
  induction h with
  | nil c => simp at hone
  | cons hpart _ ih =>
    rw [List.exists_mem_cons_iff] at hone ⊢
    exact hone.imp (hpart.sound M σ) ih

/-- The made variables of different parts are different, so their values go together. -/
theorem InTurn.complete_all (h : InTurn (fun part => Expresses sign part v) parts c c' fs)
    (hv : Known c v) {M : Set Triple} (hM : VariableFree M) {σ : Variable → Term}
    (hσ : ∀ w, (σ w).IsIndividual) (hall : ∀ part ∈ parts, sign (part.Has M (σ v))) :
    ∃ τ, Extends c c' σ τ ∧ ∀ f ∈ fs, sign (f.Holds (At M τ)) := by
  induction h generalizing σ with
  | nil c => exact ⟨σ, .refl hσ, by simp⟩
  | cons hpart hrest ih =>
    obtain ⟨hfirst, hothers⟩ := List.forall_mem_cons.mp hall
    obtain ⟨τ, hτ, hf⟩ := hpart.complete M σ hM hσ hfirst
    have hnext := hv.mono hpart.grows
    have hvalue : τ v = σ v := hτ.agree v hv.not_between
    obtain ⟨υ, hυ, hfs⟩ := ih hnext hτ.individuals (hvalue.symm ▸ hothers)
    refine ⟨υ, hτ.trans hυ hpart.grows hrest.grows, List.forall_mem_cons.mpr ⟨?_, hfs⟩⟩
    rw [hυ.holds_iff hnext hpart.atoms M]
    exact hf

theorem InTurn.complete_one (h : InTurn (fun part => Expresses sign part v) parts c c' fs)
    {M : Set Triple} (hM : VariableFree M) {σ : Variable → Term} (hσ : ∀ w, (σ w).IsIndividual)
    (hone : ∃ part ∈ parts, sign (part.Has M (σ v))) :
    ∃ τ, Extends c c' σ τ ∧ ∃ f ∈ fs, sign (f.Holds (At M τ)) := by
  induction h with
  | nil c => simp at hone
  | cons hpart hrest ih =>
    rw [List.exists_mem_cons_iff] at hone
    rcases hone with hfirst | hothers
    · obtain ⟨τ, hτ, hf⟩ := hpart.complete M σ hM hσ hfirst
      exact ⟨τ, hτ.trans (.refl hτ.individuals) hpart.grows hrest.grows, _, List.mem_cons_self .., hf⟩
    · obtain ⟨τ, hτ, f, hmem, hf⟩ := ih hothers
      exact ⟨τ, (Extends.refl hσ).trans hτ hpart.grows hrest.grows, f, List.mem_cons_of_mem _ hmem, hf⟩

variable {cls : ClassExpr} {f : Formula}

/-- All parts are said of. -/
theorem Expresses.of_all (h : InTurn (fun part => Expresses sign part v) parts c c' fs)
    (hv : Known c v) (hatoms : (∀ part ∈ fs, part.AllAtoms (Within v c c')) →
      f.AllAtoms (Within v c c'))
    (hf : ∀ truth, sign (f.Holds truth) ↔ ∀ part ∈ fs, sign (part.Holds truth))
    (hcls : ∀ M x, sign (cls.Has M x) ↔ ∀ part ∈ parts, sign (part.Has M x)) :
    Expresses sign cls v c c' f where
  grows := h.grows
  atoms := hatoms h.atoms
  sound M σ hsign := (hcls M _).mpr (h.sound_all ((hf _).mp hsign))
  complete M σ hM hσ hsign := by
    obtain ⟨τ, hτ, hfs⟩ := h.complete_all hv hM hσ ((hcls M _).mp hsign)
    exact ⟨τ, hτ, (hf _).mpr hfs⟩

/-- One of the parts is said of. -/
theorem Expresses.of_one (h : InTurn (fun part => Expresses sign part v) parts c c' fs)
    (hatoms : (∀ part ∈ fs, part.AllAtoms (Within v c c')) → f.AllAtoms (Within v c c'))
    (hf : ∀ truth, sign (f.Holds truth) ↔ ∃ part ∈ fs, sign (part.Holds truth))
    (hcls : ∀ M x, sign (cls.Has M x) ↔ ∃ part ∈ parts, sign (part.Has M x)) :
    Expresses sign cls v c c' f where
  grows := h.grows
  atoms := hatoms h.atoms
  sound M σ hsign := (hcls M _).mpr (h.sound_one ((hf _).mp hsign))
  complete M σ hM hσ hsign := by
    obtain ⟨τ, hτ, hfs⟩ := h.complete_one hM hσ ((hcls M _).mp hsign)
    exact ⟨τ, hτ, (hf _).mpr hfs⟩

end Parts

theorem isBlank_of_isGround {x : Term} (h : x.isGround = true) : x.isBlank = false := by
  cases x with
  | iri s | literal l => rfl
  | blank s | var w => cases h

/-- An atom that relates the variable to a constant or to a made variable. -/
theorem within_atom {property : PropertyExpr} (hp : property.Ground) {v : Variable} {x : Term}
    {c c' : Context} (hblank : x.isBlank = false) (hmade : ∀ w, x.var? = some w → Between c c' w) :
    Within v c c' (property.atom (.var v) x) := by
  refine ⟨fun y hy => ?_, fun w hw => ?_⟩
  · rcases PropertyExpr.terms_atom hp.allTerms hy with rfl | rfl | hground
    · rfl
    · exact hblank
    · exact isBlank_of_isGround hground
  · have hname := hp.allTerms.mono fun _ => Term.isIndividual_of_isGround
    rcases (PropertyExpr.mem_vars_atom hname).mp hw with heq | heq
    · cases heq
      exact .inl rfl
    · exact .inr (hmade w heq)

/-- Along a property to a made variable, which stands for any individual reached. -/
theorem Expresses.of_along {sign : Prop → Prop} {property : PropertyExpr} {filler cls : ClassExpr}
    {v : Variable} {c c' : Context} {f g : Formula} (hp : property.Ground) (hv : Known c v)
    (h : Expresses sign filler (madeVariable (c.nextVariable + 1)) c.next c' g)
    (hatoms : Within v c c' (property.atom (.var v) (.var (madeVariable (c.nextVariable + 1)))) →
      g.AllAtoms (Within v c c') → f.AllAtoms (Within v c c'))
    (hf : ∀ truth, sign (f.Holds truth) ↔
      truth (property.atom (.var v) (.var (madeVariable (c.nextVariable + 1)))) ∧
        sign (g.Holds truth))
    (hcls : ∀ M x, sign (cls.Has M x) ↔ ∃ y, property.Relates M x y ∧ sign (filler.Has M y)) :
    Expresses sign cls v c c' f := by
  obtain ⟨y, hy⟩ : ∃ y, y = madeVariable (c.nextVariable + 1) := ⟨_, rfl⟩
  have hbetween : Between c c' (madeVariable (c.nextVariable + 1)) := between_made h.grows
  rw [← hy] at h hatoms hf hbetween
  have htrue : ∀ (M : Set Triple) (σ : Variable → Term),
      At M σ (property.atom (.var v) (.var y)) ↔ property.Relates M (σ v) (σ y) := by
    intro M σ
    rw [At, PropertyExpr.assign_atom hp]
    exact PropertyExpr.atom_mem_iff
  refine ⟨Nat.le_of_succ_le h.grows, hatoms (within_atom hp rfl fun w hw => ?_) ?_,
    fun M σ hsign => ?_, fun M σ hM hσ hsign => ?_⟩
  · cases hw
    exact hbetween
  · exact h.atoms.mono fun t ht =>
      ht.mono (Nat.le_succ _) (Nat.le_refl _) (.inr hbetween)
  · obtain ⟨hrelated, hfiller⟩ := (hf _).mp hsign
    exact (hcls M _).mpr ⟨σ y, (htrue M σ).mp hrelated, h.sound M σ hfiller⟩
  · obtain ⟨individual, hrelated, hfiller⟩ := (hcls M _).mp hsign
    obtain ⟨ρ, hρ, hρy⟩ := exists_extends_made c hσ (hrelated.individual hM)
    rw [← hy] at hρy
    obtain ⟨τ, hτ, hg⟩ := h.complete M ρ hM hρ.individuals (hρy.symm ▸ hfiller)
    have hτy : τ y = individual := by
      rw [hτ.agree y (hy ▸ (known_made c).not_between), hρy]
    have hτv : τ v = σ v := by
      have hknown : Known c.next v := hv.mono (Nat.le_succ _)
      rw [hτ.agree v hknown.not_between, hρ.agree v hv.not_between]
    refine ⟨τ, hρ.trans hτ (Nat.le_succ _) h.grows, (hf _).mpr ⟨(htrue M τ).mpr ?_, hg⟩⟩
    rw [hτv, hτy]
    exact hrelated

theorem Expresses.of_value {sign : Prop → Prop} {property : PropertyExpr} {value : Term}
    (hp : property.Ground) (hvalue : value.isGround = true) {v : Variable} {c : Context}
    {cls : ClassExpr} (hcls : ∀ M x, cls.Has M x ↔ property.Relates M x value) :
    Expresses sign cls v c c (.atom (property.atom (.var v) value)) := by
  have hwithin : Within v c c (property.atom (.var v) value) := by
    refine within_atom hp (isBlank_of_isGround hvalue) fun w hw => ?_
    rw [(Term.isIndividual_of_isGround hvalue).var?] at hw
    cases hw
  refine .of_iff (Formula.allAtoms_atom.mpr hwithin) fun M σ => ?_
  rw [Formula.holds_atom, At, PropertyExpr.assign_atom hp, Term.assign_of_isGround hvalue, hcls,
    PropertyExpr.atom_mem_iff]
  rfl

theorem Expresses.of_thing {sign : Prop → Prop} (v : Variable) (c : Context) :
    Expresses sign .thing v c c (.conj []) := by
  refine .of_iff (by simp) fun M σ => ?_
  simp [ClassExpr.Has]

/-- **A tested class**: the formula is true for some values of the made variables if and only
if the individual is an instance. -/
theorem inBody_expresses {cls : ClassExpr} (hcls : cls.Ground) {v : Variable} {c c' : Context}
    {f : Formula} (hv : Known c v) (h : inBody cls (.var v) c = (.ok f, c')) :
    Expresses id cls v c c' f := by
  induction cls generalizing v c c' f with
  | named k =>
    obtain ⟨rfl, rfl⟩ := pure_eq_ok h
    have htype : (PropertyExpr.named (.iri Vocabulary.Rdf.type)).Ground := rfl
    exact .of_value htype hcls fun M x => by rw [ClassExpr.Has, PropertyExpr.Relates]
  | thing =>
    obtain ⟨rfl, rfl⟩ := pure_eq_ok h
    exact .of_thing v c
  | intersectionOf parts ih =>
    obtain ⟨fs, hparts, rfl⟩ := inBody_intersectionOf h
    have hall := hparts.expresses hv fun part hpart c c' f hv hf =>
      ih part hpart (ClassExpr.ground_intersectionOf.mp hcls part hpart) hv hf
    exact .of_all hall hv Formula.allAtoms_and.mpr (fun _ => Formula.holds_and)
      fun M x => ClassExpr.has_intersectionOf
  | unionOf parts ih =>
    obtain ⟨fs, hparts, rfl⟩ := inBody_unionOf h
    have hall := hparts.expresses hv fun part hpart c c' f hv hf =>
      ih part hpart (ClassExpr.ground_unionOf.mp hcls part hpart) hv hf
    exact .of_one hall Formula.allAtoms_or.mpr (fun _ => Formula.holds_or)
      fun M x => ClassExpr.has_unionOf
  | someValuesFrom property filler ih =>
    obtain ⟨g, hfiller, rfl⟩ := inBody_someValuesFrom h
    obtain ⟨hp, hground⟩ := hcls
    refine .of_along hp hv (ih hground (known_made c) hfiller) (fun ht hg => ?_) (fun truth => ?_)
      fun M x => ?_
    · simpa using ⟨ht, hg⟩
    · simp
    · simp [ClassExpr.Has]
  | hasValue property value =>
    obtain ⟨rfl, rfl⟩ := pure_eq_ok h
    exact .of_value hcls.1 hcls.2 fun M x => by rw [ClassExpr.Has]
  | nothing | complementOf _ _ | oneOf _ | allValuesFrom _ _ _ | cardinality _ _ _ => cases h

/-- **A concluded class**: the formula is false for some values of the made variables if and
only if the individual is no instance. -/
theorem inHead_expresses {cls : ClassExpr} (hcls : cls.Ground) {v : Variable} {c c' : Context}
    {f : Formula} (hv : Known c v) (h : inHead cls (.var v) c = (.ok f, c')) :
    Expresses Not cls v c c' f := by
  induction cls generalizing v c c' f with
  | named k =>
    obtain ⟨rfl, rfl⟩ := pure_eq_ok h
    have htype : (PropertyExpr.named (.iri Vocabulary.Rdf.type)).Ground := rfl
    exact .of_value htype hcls fun M x => by rw [ClassExpr.Has, PropertyExpr.Relates]
  | thing =>
    obtain ⟨rfl, rfl⟩ := pure_eq_ok h
    exact .of_thing v c
  | intersectionOf parts ih =>
    obtain ⟨fs, hparts, rfl⟩ := inHead_intersectionOf h
    have hall := hparts.expresses hv fun part hpart c c' f hv hf =>
      ih part hpart (ClassExpr.ground_intersectionOf.mp hcls part hpart) hv hf
    refine .of_one hall Formula.allAtoms_and.mpr (fun truth => ?_) fun M x => ?_
    · rw [Formula.holds_and]
      push Not
      rfl
    · rw [ClassExpr.has_intersectionOf]
      push Not
      rfl
  | unionOf parts ih =>
    obtain ⟨fs, hparts, rfl⟩ := inHead_unionOf h
    have hall := hparts.expresses hv fun part hpart c c' f hv hf =>
      ih part hpart (ClassExpr.ground_unionOf.mp hcls part hpart) hv hf
    refine .of_all hall hv Formula.allAtoms_or.mpr (fun truth => ?_) fun M x => ?_
    · rw [Formula.holds_or]
      push Not
      rfl
    · rw [ClassExpr.has_unionOf]
      push Not
      rfl
  | allValuesFrom property filler ih =>
    obtain ⟨g, hfiller, rfl⟩ := inHead_allValuesFrom h
    obtain ⟨hp, hground⟩ := hcls
    refine .of_along hp hv (ih hground (known_made c) hfiller) (fun ht hg => ?_) (fun truth => ?_)
      fun M x => ?_
    · simpa using ⟨ht, hg⟩
    · simp
    · simp [ClassExpr.Has]
  | hasValue property value =>
    obtain ⟨rfl, rfl⟩ := pure_eq_ok h
    exact .of_value hcls.1 hcls.2 fun M x => by rw [ClassExpr.Has]
  | nothing | complementOf _ _ | oneOf _ | someValuesFrom _ _ _ | cardinality _ _ _ => cases h

/-! ### Terms -/

section Terms
variable {P : Term → Prop} {cls : ClassExpr} {c c' : Context} {f : Formula}

/-- The terms of a tested class: those of the class expression, made variables and `rdf:type`. -/
theorem inBody_allTerms (htype : P (.iri Vocabulary.Rdf.type))
    (hmade : ∀ n, P (.var (madeVariable (n + 1)))) (hcls : cls.AllTerms P) {x : Term} (hx : P x)
    (h : inBody cls x c = (.ok f, c')) : f.AllAtoms fun t => ∀ y ∈ t.terms, P y := by
  induction cls generalizing x c c' f with
  | named k =>
    obtain ⟨rfl, rfl⟩ := pure_eq_ok h
    have hp : (PropertyExpr.named (.iri Vocabulary.Rdf.type)).AllTerms P := htype
    exact Formula.allAtoms_atom.mpr (PropertyExpr.AllTerms.atom hp hx hcls)
  | thing =>
    obtain ⟨rfl, rfl⟩ := pure_eq_ok h
    simp
  | intersectionOf parts ih =>
    obtain ⟨fs, hparts, rfl⟩ := inBody_intersectionOf h
    exact Formula.allAtoms_and.mpr (hparts.forall fun part hpart c c' f hf =>
      ih part hpart (ClassExpr.allTerms_intersectionOf.mp hcls part hpart) hx hf)
  | unionOf parts ih =>
    obtain ⟨fs, hparts, rfl⟩ := inBody_unionOf h
    exact Formula.allAtoms_or.mpr (hparts.forall fun part hpart c c' f hf =>
      ih part hpart (ClassExpr.allTerms_unionOf.mp hcls part hpart) hx hf)
  | someValuesFrom property filler ih =>
    obtain ⟨g, hfiller, rfl⟩ := inBody_someValuesFrom h
    have hatom := hcls.1.atom hx (hmade c.nextVariable)
    have hrest := ih hcls.2 (hmade c.nextVariable) hfiller
    simpa using ⟨hatom, hrest⟩
  | hasValue property value =>
    obtain ⟨rfl, rfl⟩ := pure_eq_ok h
    exact Formula.allAtoms_atom.mpr (hcls.1.atom hx hcls.2)
  | nothing | complementOf _ _ | oneOf _ | allValuesFrom _ _ _ | cardinality _ _ _ => cases h

theorem inHead_allTerms (htype : P (.iri Vocabulary.Rdf.type))
    (hmade : ∀ n, P (.var (madeVariable (n + 1)))) (hcls : cls.AllTerms P) {x : Term} (hx : P x)
    (h : inHead cls x c = (.ok f, c')) : f.AllAtoms fun t => ∀ y ∈ t.terms, P y := by
  induction cls generalizing x c c' f with
  | named k =>
    obtain ⟨rfl, rfl⟩ := pure_eq_ok h
    have hp : (PropertyExpr.named (.iri Vocabulary.Rdf.type)).AllTerms P := htype
    exact Formula.allAtoms_atom.mpr (PropertyExpr.AllTerms.atom hp hx hcls)
  | thing =>
    obtain ⟨rfl, rfl⟩ := pure_eq_ok h
    simp
  | intersectionOf parts ih =>
    obtain ⟨fs, hparts, rfl⟩ := inHead_intersectionOf h
    exact Formula.allAtoms_and.mpr (hparts.forall fun part hpart c c' f hf =>
      ih part hpart (ClassExpr.allTerms_intersectionOf.mp hcls part hpart) hx hf)
  | unionOf parts ih =>
    obtain ⟨fs, hparts, rfl⟩ := inHead_unionOf h
    exact Formula.allAtoms_or.mpr (hparts.forall fun part hpart c c' f hf =>
      ih part hpart (ClassExpr.allTerms_unionOf.mp hcls part hpart) hx hf)
  | allValuesFrom property filler ih =>
    obtain ⟨g, hfiller, rfl⟩ := inHead_allValuesFrom h
    have hatom := hcls.1.atom hx (hmade c.nextVariable)
    have hrest := ih hcls.2 (hmade c.nextVariable) hfiller
    simpa using ⟨hatom, hrest⟩
  | hasValue property value =>
    obtain ⟨rfl, rfl⟩ := pure_eq_ok h
    exact Formula.allAtoms_atom.mpr (hcls.1.atom hx hcls.2)
  | nothing | complementOf _ _ | oneOf _ | someValuesFrom _ _ _ | cardinality _ _ _ => cases h

end Terms

/-! ### The variable itself -/

theorem mem_vars_classAtom {k : Term} (hk : k.IsIndividual) {v w : Variable} :
    w ∈ (⟨.var v, .iri Vocabulary.Rdf.type, k⟩ : Triple).vars ↔ w = v := by
  rw [Triple.mem_vars, hk.var?]
  simp [Term.var?, eq_comm]

/-- If each of two alternatives has the variable unless it is empty, so do both together. -/
theorem mem_vars_append {v : Variable} (a b : List Triple)
    (ha : a ≠ [] → v ∈ a.flatMap Triple.vars) (hb : b ≠ [] → v ∈ b.flatMap Triple.vars)
    (hne : a ++ b ≠ []) : v ∈ (a ++ b).flatMap Triple.vars := by
  rw [List.flatMap_append, List.mem_append]
  by_cases hnil : a = []
  · exact .inr (hb fun hb => hne (by rw [hnil, hb, List.append_nil]))
  · exact .inl (ha hnil)

/-- An alternative of a tested class has the variable, unless it is empty. -/
theorem inBody_anchored {cls : ClassExpr} (hcls : cls.AllTerms Term.IsIndividual) {v : Variable} {c c' : Context}
    {f : Formula} (h : inBody cls (.var v) c = (.ok f, c')) :
    ∀ options, f.alternatives = .ok options →
      ∀ alt ∈ options, alt ≠ [] → v ∈ alt.flatMap Triple.vars := by
  induction cls generalizing c c' f with
  | named k =>
    obtain ⟨rfl, rfl⟩ := pure_eq_ok h
    intro options hoptions
    cases hoptions
    simp [mem_vars_classAtom hcls]
  | thing =>
    obtain ⟨rfl, rfl⟩ := pure_eq_ok h
    intro options hoptions
    cases hoptions
    simp
  | intersectionOf parts ih =>
    obtain ⟨fs, hparts, rfl⟩ := inBody_intersectionOf h
    intro options hoptions
    refine Formula.alternatives_and_forall (by simp) mem_vars_append ?_ hoptions
    exact hparts.forall fun part hpart c c' f hf =>
      ih part hpart (ClassExpr.allTerms_intersectionOf.mp hcls part hpart) hf
  | unionOf parts ih =>
    obtain ⟨fs, hparts, rfl⟩ := inBody_unionOf h
    intro options hoptions
    refine Formula.alternatives_or_forall ?_ hoptions
    exact hparts.forall fun part hpart c c' f hf =>
      ih part hpart (ClassExpr.allTerms_unionOf.mp hcls part hpart) hf
  | someValuesFrom property filler _ =>
    obtain ⟨g, hfiller, rfl⟩ := inBody_someValuesFrom h
    intro options hoptions
    obtain ⟨firsts, seconds, hfirst, _, hpairs⟩ := Formula.alternatives_and_pair hoptions
    cases hfirst
    intro alt halt _
    obtain ⟨a, ha, b, _, rfl⟩ := hpairs alt halt
    rw [List.mem_singleton.mp ha]
    simp [PropertyExpr.mem_vars_atom hcls.1, Term.var?]
  | hasValue property value =>
    obtain ⟨rfl, rfl⟩ := pure_eq_ok h
    intro options hoptions
    cases hoptions
    simp [PropertyExpr.mem_vars_atom hcls.1, Term.var?]
  | nothing | complementOf _ _ | oneOf _ | allValuesFrom _ _ _ | cardinality _ _ _ => cases h

/-- A concluded class has the variable only, or made ones behind the atom that reaches them. -/
theorem inHead_guarded {cls : ClassExpr} (hcls : cls.AllTerms Term.IsIndividual) {v : Variable}
    {c c' : Context} {f : Formula} (h : inHead cls (.var v) c = (.ok f, c')) : f.Guarded [v] := by
  induction cls generalizing v c c' f with
  | named k =>
    obtain ⟨rfl, rfl⟩ := pure_eq_ok h
    refine Formula.guarded_atom.mpr fun w hw => ?_
    rw [(mem_vars_classAtom hcls).mp hw]
    exact List.mem_singleton_self v
  | thing =>
    obtain ⟨rfl, rfl⟩ := pure_eq_ok h
    simp
  | intersectionOf parts ih =>
    obtain ⟨fs, hparts, rfl⟩ := inHead_intersectionOf h
    rw [Formula.guarded_and]
    exact hparts.forall fun part hpart c c' f hf =>
      ih part hpart (ClassExpr.allTerms_intersectionOf.mp hcls part hpart) hf
  | unionOf parts ih =>
    obtain ⟨fs, hparts, rfl⟩ := inHead_unionOf h
    rw [Formula.guarded_or]
    exact hparts.forall fun part hpart c c' f hf =>
      ih part hpart (ClassExpr.allTerms_unionOf.mp hcls part hpart) hf
  | allValuesFrom property filler ih =>
    obtain ⟨g, hfiller, rfl⟩ := inHead_allValuesFrom h
    obtain ⟨hp, hfillers⟩ := hcls
    refine Formula.guarded_implies.mpr ⟨_, ih hfillers hfiller, fun options hoptions alt halt => ?_⟩
    cases hoptions
    rw [List.mem_singleton.mp halt]
    simp [PropertyExpr.mem_vars_atom hp, Term.var?]
  | hasValue property value =>
    obtain ⟨rfl, rfl⟩ := pure_eq_ok h
    refine Formula.guarded_atom.mpr fun w hw => ?_
    rcases (PropertyExpr.mem_vars_atom hcls.1).mp hw with heq | heq
    · cases heq
      exact List.mem_singleton_self v
    · rw [Term.IsIndividual.var? hcls.2] at heq
      cases heq
  | nothing | complementOf _ _ | oneOf _ | someValuesFrom _ _ _ | cardinality _ _ _ => cases h

end HornReasoner.Ontology
