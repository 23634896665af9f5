import HornReasoner.Proofs.Formula.Renaming
import HornReasoner.Proofs.Ontology.Compilation
import HornReasoner.Proofs.Ontology.Description
import Mathlib.Logic.Function.Basic

/-! The numbers of made variables.

Compiling an axiom takes variables from a counter, so what it gives depends on how many were
taken before: on nothing but their numbers (`clauses_parallel`). Rules that differ in the numbers
of their made variables only are variants of each other. -/
namespace HornReasoner.Ontology

open TripleSource

/-! ### Variants -/

/-- A made variable with another number; other variables as they are. -/
noncomputable def renumber (h : Nat → Nat) : Variable → Variable :=
  Function.extend (fun n => madeVariable (n + 1)) (fun n => madeVariable (h n + 1)) id

variable {h k : Nat → Nat}

theorem made_injective : Function.Injective fun n => madeVariable (n + 1) :=
  fun _ _ heq => Nat.succ.inj (madeVariable_injective heq)

theorem renumber_made (n : Nat) : renumber h (madeVariable (n + 1)) = madeVariable (h n + 1) :=
  made_injective.extend_apply _ _ n

theorem renumber_of_not_made {v : Variable} (hv : ∀ n, v ≠ madeVariable (n + 1)) :
    renumber h v = v :=
  Function.extend_apply' _ _ v fun ⟨n, hn⟩ => hv n hn.symm

theorem made_or_not (v : Variable) :
    (∃ n, v = madeVariable (n + 1)) ∨ ∀ n, v ≠ madeVariable (n + 1) := by
  by_cases hv : ∃ n, v = madeVariable (n + 1)
  · exact .inl hv
  · exact .inr fun n hn => hv ⟨n, hn⟩

theorem renumber_comp : renumber k ∘ renumber h = renumber (k ∘ h) := by
  funext v
  rcases made_or_not v with ⟨n, rfl⟩ | hv
  · rw [Function.comp_apply, renumber_made, renumber_made, renumber_made]
    rfl
  · rw [Function.comp_apply, renumber_of_not_made hv, renumber_of_not_made hv,
      renumber_of_not_made hv]

theorem renumber_id : renumber id = id := by
  funext v
  rcases made_or_not v with ⟨n, rfl⟩ | hv
  · exact renumber_made n
  · exact renumber_of_not_made hv

theorem renumber_injective (hh : Function.Injective h) : Function.Injective (renumber h) := by
  intro v w heq
  rcases made_or_not v with ⟨m, rfl⟩ | hv <;> rcases made_or_not w with ⟨n, rfl⟩ | hw
  · rw [renumber_made, renumber_made] at heq
    rw [hh (made_injective heq)]
  · rw [renumber_made, renumber_of_not_made hw] at heq
    exact absurd heq.symm (hw _)
  · rw [renumber_made, renumber_of_not_made hv] at heq
    exact absurd heq (hv _)
  · rwa [renumber_of_not_made hv, renumber_of_not_made hw] at heq

theorem renumber_blank (label : String) : renumber h ⟨"_" ++ label⟩ = ⟨"_" ++ label⟩ :=
  renumber_of_not_made fun n hn =>
    IsCompiled.ne_blank (.inr (.inr (.inr ⟨n, rfl⟩))) label hn.symm

/-- Each rule is the other one with its made variables renumbered, whatever the labels. -/
def Variant (r s : HornRule) : Prop :=
  (∃ h, HornRule.Renamed (renumber h) r s) ∧ ∃ h, HornRule.Renamed (renumber h) s r

theorem Variant.refl (r : HornRule) : Variant r r :=
  ⟨⟨id, by rw [renumber_id]; exact .refl r⟩, ⟨id, by rw [renumber_id]; exact .refl r⟩⟩

theorem Variant.symm {r s : HornRule} (h : Variant r s) : Variant s r := ⟨h.2, h.1⟩

theorem Variant.trans {r s t : HornRule} (hrs : Variant r s) (hst : Variant s t) : Variant r t := by
  obtain ⟨⟨_, hto⟩, ⟨_, hback⟩⟩ := hrs
  obtain ⟨⟨_, hto'⟩, ⟨_, hback'⟩⟩ := hst
  exact ⟨⟨_, renumber_comp ▸ hto.trans hto'⟩, ⟨_, renumber_comp ▸ hback'.trans hback⟩⟩

/-- Numbers greater by `m`. -/
noncomputable abbrev shift (m : Nat) : Variable → Variable := renumber (· + m)

theorem shift_injective (m : Nat) : Function.Injective (shift m) :=
  renumber_injective fun _ _ heq => Nat.add_right_cancel heq

theorem variant_of_shift {m : Nat} {r s : HornRule} (h : HornRule.Renamed (shift m) r s) :
    Variant r s := by
  refine ⟨⟨_, h⟩, ⟨(· - m), h.inverse ?_⟩⟩
  rw [renumber_comp, show (· - m) ∘ (· + m) = id from funext fun n => Nat.add_sub_cancel n m,
    renumber_id]

/-! ### Actions -/

/-- From related states the actions end in related states, with the results related or with the
same error. -/
def Parallel {σ α β : Type} (Rel : σ → σ → Prop) (f : α → β)
    (act : ExceptT OntologyError (StateM σ) α) (act' : ExceptT OntologyError (StateM σ) β) : Prop :=
  ∀ s s', Rel s s' → (act' s').1 = (act s).1.map f ∧ Rel (act s).2 (act' s').2

namespace Parallel
variable {σ α β γ δ : Type} {Rel : σ → σ → Prop} {f : α → β} {g : γ → δ}

theorem pure (a : α) : Parallel Rel f (Pure.pure a) (Pure.pure (f a)) := fun _ _ h => ⟨rfl, h⟩

theorem pure_of_eq {a : α} {b : β} (h : f a = b) : Parallel Rel f (Pure.pure a) (Pure.pure b) :=
  h ▸ pure a

theorem throw (e : OntologyError) :
    Parallel Rel f (MonadExcept.throw e) (MonadExcept.throw e) := fun _ _ h => ⟨rfl, h⟩

theorem bind {act : ExceptT OntologyError (StateM σ) α} {act' : ExceptT OntologyError (StateM σ) β}
    {k : α → ExceptT OntologyError (StateM σ) γ} {k' : β → ExceptT OntologyError (StateM σ) δ}
    (h : Parallel Rel f act act')
    (hk : ∀ a, (∃ s t, act s = (.ok a, t)) → Parallel Rel g (k a) (k' (f a))) :
    Parallel Rel g (act >>= k) (act' >>= k') := by
  intro s s' hrel
  obtain ⟨hresult, hnext⟩ := h s s' hrel
  show (ExceptT.bindCont k' (act' s').1 (act' s').2).1 =
      (ExceptT.bindCont k (act s).1 (act s).2).1.map g ∧
    Rel (ExceptT.bindCont k (act s).1 (act s).2).2 (ExceptT.bindCont k' (act' s').1 (act' s').2).2
  rw [hresult]
  cases hact : (act s).1 with
  | error e => exact ⟨rfl, hnext⟩
  | ok a => exact hk a ⟨s, _, Prod.ext hact rfl⟩ _ _ hnext

theorem mapM {ι : Type} {k : ι → ExceptT OntologyError (StateM σ) α}
    {k' : ι → ExceptT OntologyError (StateM σ) β} {is : List ι}
    (h : ∀ i ∈ is, Parallel Rel f (k i) (k' i)) :
    Parallel Rel (List.map f) (is.mapM k) (is.mapM k') := by
  induction is with
  | nil =>
    rw [List.mapM_nil, List.mapM_nil]
    exact .pure []
  | cons i rest ih =>
    obtain ⟨hi, hrest⟩ := List.forall_mem_cons.mp h
    rw [List.mapM_cons, List.mapM_cons]
    exact hi.bind fun _ _ => (ih hrest).bind fun _ _ => .pure _

end Parallel

/-! ### Membership -/

/-- The variables still to be made in the first context get the numbers of those in the second
one. -/
def Ahead (h : Nat → Nat) (c d : Context) : Prop :=
  ∀ n, h (c.nextVariable + n) = d.nextVariable + n

theorem ahead_add {m : Nat} {c d : Context} (hnext : d.nextVariable = c.nextVariable + m) :
    Ahead (· + m) c d := by
  intro n
  show c.nextVariable + n + m = d.nextVariable + n
  omega

theorem parallel_freshVariable (h : Nat → Nat) :
    Parallel (Ahead h) (Term.rename (renumber h)) freshVariable freshVariable := by
  intro c d hahead
  have hmade : ∀ c : Context, freshVariable c =
      (.ok (.var (madeVariable (c.nextVariable + 1))), c.next) := fun _ => rfl
  have hnumber : h c.nextVariable = d.nextVariable := hahead 0
  rw [hmade, hmade]
  constructor
  · show Except.ok (Term.var (madeVariable (d.nextVariable + 1))) =
      .ok (Term.var (renumber h (madeVariable (c.nextVariable + 1))))
    rw [renumber_made, hnumber]
  · intro n
    show h (c.nextVariable + 1 + n) = d.nextVariable + 1 + n
    rw [Nat.add_assoc, Nat.add_assoc]
    exact hahead (1 + n)

section Membership
variable {f : Variable → Variable} {cls : ClassExpr}

theorem rename_atom {property : PropertyExpr} (hp : property.AllTerms fun t => t.rename f = t)
    (s o : Term) : (property.atom s o).rename f = property.atom (s.rename f) (o.rename f) := by
  induction property generalizing s o with
  | named p =>
    have hname : p.rename f = p := hp
    rw [PropertyExpr.atom, PropertyExpr.atom, Triple.rename, Triple.map, hname]
  | inverseOf inner ih => exact ih hp o s

theorem allInBody_eq_mapM (parts : List ClassExpr) (x : Term) :
    allInBody parts x = parts.mapM fun part => inBody part x := by
  induction parts with
  | nil => rfl
  | cons part rest ih => rw [allInBody, ih, List.mapM_cons]

theorem allInHead_eq_mapM (parts : List ClassExpr) (x : Term) :
    allInHead parts x = parts.mapM fun part => inHead part x := by
  induction parts with
  | nil => rfl
  | cons part rest ih => rw [allInHead, ih, List.mapM_cons]

theorem parallel_atom {property : PropertyExpr}
    (hp : property.AllTerms fun t => t.rename f = t) (s : Term) {o : Term} (ho : o.rename f = o) :
    Parallel (Ahead h) (Formula.rename f) (pure (.atom (property.atom s o)))
      (pure (.atom (property.atom (s.rename f) o))) := by
  refine .pure_of_eq ?_
  rw [Formula.rename, rename_atom hp, ho]

theorem parallel_classAtom {k : Term} (hk : k.rename f = k) (s : Term) :
    Parallel (Ahead h) (Formula.rename f) (pure (.classAtom s k))
      (pure (.classAtom (s.rename f) k)) :=
  have hp : (PropertyExpr.named (.iri Vocabulary.Rdf.type)).AllTerms fun t => t.rename f = t := rfl
  parallel_atom hp s hk

/-- The body of a class is the same up to the numbers of its variables. -/
theorem parallel_inBody (hcls : cls.AllTerms fun t => t.rename (renumber h) = t) (x : Term) :
    Parallel (Ahead h) (Formula.rename (renumber h)) (inBody cls x)
      (inBody cls (x.rename (renumber h))) := by
  induction cls generalizing x with
  | named k =>
    rw [inBody, inBody]
    exact parallel_classAtom hcls x
  | thing =>
    rw [inBody, inBody]
    exact .pure _
  | intersectionOf parts ih =>
    rw [inBody, inBody, allInBody_eq_mapM, allInBody_eq_mapM]
    refine (Parallel.mapM fun part hpart =>
      ih part hpart (ClassExpr.allTerms_intersectionOf.mp hcls part hpart) x).bind fun fs _ => ?_
    exact .pure_of_eq (Formula.rename_and fs)
  | unionOf parts ih =>
    rw [inBody, inBody, allInBody_eq_mapM, allInBody_eq_mapM]
    refine (Parallel.mapM fun part hpart =>
      ih part hpart (ClassExpr.allTerms_unionOf.mp hcls part hpart) x).bind fun fs _ => ?_
    exact .pure_of_eq (Formula.rename_or fs)
  | someValuesFrom property filler ih =>
    rw [inBody, inBody]
    refine (parallel_freshVariable h).bind fun y _ => (ih hcls.2 y).bind fun f _ => ?_
    refine .pure_of_eq ?_
    rw [Formula.rename_and, ← rename_atom hcls.1]
    rfl
  | hasValue property value =>
    rw [inBody, inBody]
    exact parallel_atom hcls.1 x hcls.2
  | nothing | complementOf _ | oneOf _ | allValuesFrom _ _ _ | cardinality _ _ _ =>
    rw [inBody, inBody]
    exact .throw _

/-- The head of a class is the same up to the numbers of its variables. -/
theorem parallel_inHead (hcls : cls.AllTerms fun t => t.rename (renumber h) = t) (x : Term) :
    Parallel (Ahead h) (Formula.rename (renumber h)) (inHead cls x)
      (inHead cls (x.rename (renumber h))) := by
  induction cls generalizing x with
  | named k =>
    rw [inHead, inHead]
    exact parallel_classAtom hcls x
  | thing =>
    rw [inHead, inHead]
    exact .pure _
  | intersectionOf parts ih =>
    rw [inHead, inHead, allInHead_eq_mapM, allInHead_eq_mapM]
    refine (Parallel.mapM fun part hpart =>
      ih part hpart (ClassExpr.allTerms_intersectionOf.mp hcls part hpart) x).bind fun fs _ => ?_
    exact .pure_of_eq (Formula.rename_and fs)
  | unionOf parts ih =>
    rw [inHead, inHead, allInHead_eq_mapM, allInHead_eq_mapM]
    refine (Parallel.mapM fun part hpart =>
      ih part hpart (ClassExpr.allTerms_unionOf.mp hcls part hpart) x).bind fun fs _ => ?_
    exact .pure_of_eq (Formula.rename_or fs)
  | allValuesFrom property filler ih =>
    rw [inHead, inHead]
    refine (parallel_freshVariable h).bind fun y _ => (ih hcls.2 y).bind fun f _ => ?_
    refine .pure_of_eq ?_
    rw [← rename_atom hcls.1]
    rfl
  | hasValue property value =>
    rw [inHead, inHead]
    exact parallel_atom hcls.1 x hcls.2
  | nothing | complementOf _ | oneOf _ | someValuesFrom _ _ _ | cardinality _ _ _ =>
    rw [inHead, inHead]
    exact .throw _

end Membership

/-! ### Axioms -/

/-- Nothing is being read, and the variables still to be made get other numbers. -/
structure Progress.Ahead (h : Nat → Nat) (p q : Progress) : Prop where
  reading : p.reading = []
  reading' : q.reading = []
  context : Ontology.Ahead h p.context q.context

theorem parallel_expressing {α : Type} {f : α → α} {act act' : Expressing α}
    (hact : Parallel (Ahead h) f act act') :
    Parallel (Progress.Ahead h) f (expressing act) (expressing act') := by
  intro p q hpq
  obtain ⟨hresult, hnext⟩ := hact p.context q.context hpq.context
  exact ⟨hresult, hpq.reading, hpq.reading', hnext⟩

/-- Reading takes no variables. -/
theorem parallel_reading {α : Type} {act : Reading α} (hact : Agree [] act act) :
    Parallel (Progress.Ahead h) id (reading act) (reading act) := by
  intro p q hpq
  obtain ⟨hp, hq, hcontext⟩ := hpq
  obtain ⟨terms, context⟩ := p
  obtain ⟨terms', context'⟩ := q
  cases hp
  cases hq
  refine ⟨?_, hact.keeps, hact.keeps, hcontext⟩
  show (act []).1 = (act []).1.map id
  cases (act []).1 <;> rfl

section Axioms

theorem rename_variables : x.rename (renumber h) = x ∧ y.rename (renumber h) = y ∧
    z.rename (renumber h) = z := by
  have hone : ∀ name : String, (∀ n, name.toList ≠ (madeVariable (n + 1)).name.toList) →
      (Term.var ⟨name⟩).rename (renumber h) = .var ⟨name⟩ := by
    intro name hname
    refine congrArg Term.var (renumber_of_not_made fun n hn => hname n ?_)
    rw [← hn]
  refine ⟨hone "x" ?_, hone "y" ?_, hone "z" ?_⟩ <;> simp [madeVariable]

theorem parallel_inclusion {sub sup : ClassExpr} (label : String)
    (hsub : sub.AllTerms fun t => t.rename (renumber h) = t)
    (hsup : sup.AllTerms fun t => t.rename (renumber h) = t) :
    Parallel (Progress.Ahead h) (Clause.rename (renumber h)) (inclusion label sub sup)
      (inclusion label sub sup) := by
  obtain ⟨hx, _⟩ := rename_variables (h := h)
  have hbody := parallel_inBody hsub x
  have hhead := parallel_inHead hsup x
  rw [hx] at hbody hhead
  exact (parallel_expressing hbody).bind fun _ _ => (parallel_expressing hhead).bind fun _ _ =>
    .pure _

theorem rename_related {property : PropertyExpr}
    (hp : property.AllTerms fun t => t.rename (renumber h) = t) :
    (Formula.atom (property.atom x y)).rename (renumber h) = .atom (property.atom x y) := by
  obtain ⟨hx, hy, _⟩ := rename_variables (h := h)
  rw [Formula.rename, rename_atom hp, hx, hy]

/-- An inclusion of properties has no made variables. -/
theorem rename_propertyInclusion (label : String) {sub sup : PropertyExpr}
    (hsub : sub.AllTerms fun t => t.rename (renumber h) = t)
    (hsup : sup.AllTerms fun t => t.rename (renumber h) = t) :
    (propertyInclusion label sub sup).rename (renumber h) = propertyInclusion label sub sup := by
  rw [propertyInclusion, Clause.rename, rename_related hsub, rename_related hsup]

variable {σ : Type} [TripleSource σ] {source : σ} {nodes : List Term}

/-- **The clauses of an axiom are the same up to the numbers of their variables**, whatever was
compiled before. -/
theorem clauses_parallel (hsource : SameDescriptions source source nodes)
    (hterms : ∀ t, Mentions source t → t.rename (renumber h) = t) {a : Axiom}
    (ha : a.AllTerms (Mentions source)) :
    Parallel (Progress.Ahead h) (List.map (Clause.rename (renumber h))) (a.clauses source)
      (a.clauses source) := by
  obtain ⟨hx, hy, hz⟩ := rename_variables (h := h)
  have hclass := fun t => parallel_reading (h := h) (agree_readClass hsource t)
  have hproperty := fun t => parallel_reading (h := h) (agree_readProperty hsource t)
  have hmembers := fun t => parallel_reading (h := h) (agree_readMembers hsource t)
  -- what is read has terms of the source only, and these stay
  have hclassTerms : ∀ {t cls}, Mentions source t →
      (∃ p q, reading (readClass source t) p = (.ok cls, q)) →
      cls.AllTerms fun t => t.rename (renumber h) = t :=
    fun ht ⟨_, _, hread⟩ => (reading_class ht hread).mono hterms
  have hpropertyTerms : ∀ {t property}, Mentions source t →
      (∃ p q, reading (readProperty source t) p = (.ok property, q)) →
      property.AllTerms fun t => t.rename (renumber h) = t :=
    fun ht ⟨_, _, hread⟩ => (reading_property ht hread).mono hterms
  have hwholeTerms : ∀ {t parts}, (∃ p q, reading (readMembers source t) p = (.ok parts, q)) →
      ∀ part ∈ parts, part.AllTerms fun t => t.rename (renumber h) = t :=
    fun ⟨_, _, hread⟩ part hpart => (reading_members hread part hpart).mono hterms
  cases a with
  | subClassOf sub sup =>
    refine (hclass sub).bind fun subClass hsub => (hclass sup).bind fun supClass hsup => ?_
    exact (parallel_inclusion _ (hclassTerms ha.1 hsub) (hclassTerms ha.2 hsup)).bind
      fun _ _ => .pure _
  | equivalentClass left right =>
    refine (hclass left).bind fun leftClass hleft => (hclass right).bind fun rightClass hright => ?_
    have hleftTerms := hclassTerms ha.1 hleft
    have hrightTerms := hclassTerms ha.2 hright
    exact (parallel_inclusion _ hleftTerms hrightTerms).bind fun _ _ =>
      (parallel_inclusion _ hrightTerms hleftTerms).bind fun _ _ => .pure _
  | intersection cls members =>
    refine (hmembers members).bind fun parts hparts => ?_
    have hwhole := ClassExpr.allTerms_intersectionOf.mpr (hwholeTerms hparts)
    have hnamed : (ClassExpr.named cls).AllTerms fun t => t.rename (renumber h) = t := hterms cls ha.1
    exact (parallel_inclusion _ hwhole hnamed).bind fun _ _ =>
      (parallel_inclusion _ hnamed hwhole).bind fun _ _ => .pure _
  | union cls members =>
    refine (hmembers members).bind fun parts hparts => ?_
    have hwhole := ClassExpr.allTerms_unionOf.mpr (hwholeTerms hparts)
    have hnamed : (ClassExpr.named cls).AllTerms fun t => t.rename (renumber h) = t := hterms cls ha.1
    exact (parallel_inclusion _ hwhole hnamed).bind fun _ _ => .pure _
  | inverse p q =>
    have hback : (PropertyExpr.inverseOf (.named p)).AllTerms fun t => t.rename (renumber h) = t :=
      hterms p ha.1
    have hto : (PropertyExpr.named q).AllTerms fun t => t.rename (renumber h) = t := hterms q ha.2
    exact .pure_of_eq (congrArg₂ (fun c d => [c, d]) (rename_propertyInclusion _ hback hto)
      (rename_propertyInclusion _ hto hback))
  | transitive p =>
    have hp := hterms p ha
    refine .pure_of_eq ?_
    simp [Clause.rename, Formula.rename, Formula.rename_and, Triple.rename, Triple.map, hx, hy, hz,
      hp]
  | symmetric p =>
    have hto : (PropertyExpr.named p).AllTerms fun t => t.rename (renumber h) = t := hterms p ha
    have hback : (PropertyExpr.inverseOf (.named p)).AllTerms fun t => t.rename (renumber h) = t :=
      hterms p ha
    exact .pure_of_eq (congrArg (fun c => [c]) (rename_propertyInclusion _ hto hback))
  | domain p cls =>
    refine (hproperty p).bind fun property hp => (hclass cls).bind fun expression hcls => ?_
    have hhead := parallel_inHead (hclassTerms ha.2 hcls) x
    rw [hx] at hhead
    refine (parallel_expressing hhead).bind fun head _ => .pure_of_eq ?_
    rw [List.map_singleton, Clause.rename, rename_related (hpropertyTerms ha.1 hp)]
    rfl
  | range p cls =>
    refine (hproperty p).bind fun property hp => (hclass cls).bind fun expression hcls => ?_
    have hhead := parallel_inHead (hclassTerms ha.2 hcls) y
    rw [hy] at hhead
    refine (parallel_expressing hhead).bind fun head _ => .pure_of_eq ?_
    rw [List.map_singleton, Clause.rename, rename_related (hpropertyTerms ha.1 hp)]
    rfl
  | subPropertyOf sub sup =>
    refine (hproperty sub).bind fun subProperty hsub =>
      (hproperty sup).bind fun supProperty hsup => ?_
    exact .pure_of_eq (congrArg (fun c => [c])
      (rename_propertyInclusion _ (hpropertyTerms ha.1 hsub) (hpropertyTerms ha.2 hsup)))
  | equivalentProperty left right =>
    refine (hproperty left).bind fun leftProperty hleft =>
      (hproperty right).bind fun rightProperty hright => ?_
    have hleftTerms := hpropertyTerms ha.1 hleft
    have hrightTerms := hpropertyTerms ha.2 hright
    exact .pure_of_eq (congrArg₂ (fun c d => [c, d])
      (rename_propertyInclusion _ hleftTerms hrightTerms)
      (rename_propertyInclusion _ hrightTerms hleftTerms))
  | inexpressible predicate cls => exact .pure _

end Axioms

end HornReasoner.Ontology
