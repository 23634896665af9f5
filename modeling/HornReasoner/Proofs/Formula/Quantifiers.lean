import HornReasoner.Proofs.Formula.Equivalence
import HornReasoner.Proofs.Ontology.Interpretation

/-! Quantifiers in clauses.

Here a formula is read in a set of triples, and a quantifier binds its variables. Taking a
clause apart drops the quantifiers: a rule decides by name alone, its existentials being the
variables that only its head has. That keeps what the clause says where no other variable has a
bound one's name (`bound_existential`), and not otherwise (`captured_rule`). -/
namespace HornReasoner

namespace Formula

variable {M : Set Triple} {σ : Variable → Term} {v : Variable} {f : Formula}

/-! ### Truth in a set of triples -/

mutual

/-- The formula is true in `M` under an assignment, which a quantifier changes on its variables. -/
def HoldsIn (M : Set Triple) : Formula → (Variable → Term) → Prop
  | atom t, σ => t.assign σ ∈ M
  | conj parts, σ => AllHoldIn M parts σ
  | disj parts, σ => SomeHoldsIn M parts σ
  | exist vars inner, σ => ∃ τ : Variable → Term, (∀ v, (τ v).IsIndividual) ∧
    (∀ v, v ∉ vars → τ v = σ v) ∧ inner.HoldsIn M τ
  | implies body head, σ => body.HoldsIn M σ → head.HoldsIn M σ

def AllHoldIn (M : Set Triple) : List Formula → (Variable → Term) → Prop
  | [], _ => True
  | part :: rest, σ => part.HoldsIn M σ ∧ AllHoldIn M rest σ

def SomeHoldsIn (M : Set Triple) : List Formula → (Variable → Term) → Prop
  | [], _ => False
  | part :: rest, σ => part.HoldsIn M σ ∨ SomeHoldsIn M rest σ

end

@[simp] theorem holdsIn_atom {t : Triple} : (atom t).HoldsIn M σ ↔ t.assign σ ∈ M := by
  rw [HoldsIn]

@[simp] theorem holdsIn_conj {parts : List Formula} :
    (conj parts).HoldsIn M σ ↔ ∀ part ∈ parts, part.HoldsIn M σ := by
  rw [HoldsIn]
  induction parts with
  | nil => simp [AllHoldIn]
  | cons part rest ih => simp [AllHoldIn, ih]

@[simp] theorem holdsIn_disj {parts : List Formula} :
    (disj parts).HoldsIn M σ ↔ ∃ part ∈ parts, part.HoldsIn M σ := by
  rw [HoldsIn]
  induction parts with
  | nil => simp [SomeHoldsIn]
  | cons part rest ih => simp [SomeHoldsIn, ih]

@[simp] theorem holdsIn_exist {vars : List Variable} {inner : Formula} :
    (exist vars inner).HoldsIn M σ ↔ ∃ τ : Variable → Term, (∀ v, (τ v).IsIndividual) ∧
      (∀ v, v ∉ vars → τ v = σ v) ∧ inner.HoldsIn M τ := by
  rw [HoldsIn]

theorem holdsIn_exist_of_update (hσ : ∀ v, (σ v).IsIndividual) {x : Term} (hx : x.IsIndividual)
    (h : f.HoldsIn M (Function.update σ v x)) : (exist [v] f).HoldsIn M σ := by
  refine holdsIn_exist.mpr ⟨Function.update σ v x, fun w => ?_, fun w hw => ?_, h⟩
  · rcases eq_or_ne w v with rfl | hne
    · rwa [Function.update_self]
    · rw [Function.update_of_ne hne]
      exact hσ w
  · exact Function.update_of_ne (by simpa using hw) _ _

@[simp] theorem holdsIn_implies {body head : Formula} :
    (implies body head).HoldsIn M σ ↔ (body.HoldsIn M σ → head.HoldsIn M σ) := by
  rw [HoldsIn]

@[simp] theorem holdsIn_and {parts : List Formula} :
    (and parts).HoldsIn M σ ↔ ∀ part ∈ parts, part.HoldsIn M σ := by
  unfold and
  split <;> simp

/-! ### Variables -/

/-- An atom has the variable, bound or not. -/
def Occurs (v : Variable) (f : Formula) : Prop := ¬ f.AllAtoms fun t => v ∉ t.vars

mutual

/-- A quantifier binds an occurrence of the variable. -/
def Binds (v : Variable) : Formula → Prop
  | atom _ => False
  | conj parts => SomeBinds v parts
  | disj parts => SomeBinds v parts
  | exist vars inner => (v ∈ vars ∧ inner.Occurs v) ∨ inner.Binds v
  | implies body head => body.Binds v ∨ head.Binds v

def SomeBinds (v : Variable) : List Formula → Prop
  | [] => False
  | part :: rest => part.Binds v ∨ SomeBinds v rest

end

mutual

/-- No variable that is bound in one part of a conjunction occurs in another. -/
def NamedApart : Formula → Prop
  | atom _ => True
  | conj parts => AllNamedApart parts
  | disj parts => AllNamedApart parts
  | exist _ inner => inner.NamedApart
  | implies body head => body.NamedApart ∧ head.NamedApart

def AllNamedApart : List Formula → Prop
  | [] => True
  | part :: rest => part.NamedApart ∧ (∀ other ∈ rest, ∀ v,
      (part.Binds v → ¬ other.Occurs v) ∧ (other.Binds v → ¬ part.Occurs v)) ∧ AllNamedApart rest

end

theorem someBinds_iff {parts : List Formula} :
    SomeBinds v parts ↔ ∃ part ∈ parts, part.Binds v := by
  induction parts with
  | nil => simp [SomeBinds]
  | cons part rest ih => simp [SomeBinds, ih]

theorem occurs_of_conjuncts {atoms : List Triple} (h : f.conjuncts? = some atoms) {t : Triple}
    (ht : t ∈ atoms) (hv : v ∈ t.vars) : f.Occurs v :=
  fun hall => hall.conjuncts h t ht hv

/-! ### Bodies -/

/-- What the formula says without its quantifiers is enough where it has no implication. -/
theorem holdsIn_of_holds (hσ : ∀ v, (σ v).IsIndividual) {options : List (List Triple)}
    (halternatives : f.alternatives = .ok options) (h : f.Holds fun t => t.assign σ ∈ M) :
    f.HoldsIn M σ := by
  have hparts : ∀ {parts : List Formula} {lists : List (List (List Triple))},
      List.Forall₂ (fun part options => part.alternatives = .ok options) parts lists →
      ∀ part ∈ parts, ∃ options, part.alternatives = .ok options := by
    intro parts lists hlists
    induction hlists with
    | nil => simp
    | cons hpart _ ih => exact List.forall_mem_cons.mpr ⟨⟨_, hpart⟩, ih⟩
  induction f generalizing options with
  | atom t => simpa using h
  | conj parts ih =>
    obtain ⟨lists, hlists, _⟩ := alternatives_conj halternatives
    refine holdsIn_conj.mpr fun part hpart => ?_
    obtain ⟨options, hoptions⟩ := hparts hlists part hpart
    exact ih part hpart hoptions (holds_conj.mp h part hpart)
  | disj parts ih =>
    obtain ⟨lists, hlists, _⟩ := alternatives_disj halternatives
    obtain ⟨part, hpart, htrue⟩ := holds_disj.mp h
    obtain ⟨options, hoptions⟩ := hparts hlists part hpart
    exact holdsIn_disj.mpr ⟨part, hpart, ih part hpart hoptions htrue⟩
  | exist vars inner ih =>
    exact holdsIn_exist.mpr ⟨σ, hσ, fun _ _ => rfl, ih halternatives (holds_exist.mp h)⟩
  | implies body head _ _ => cases halternatives

/-! ### Heads -/

/-- Other individuals for the variables with `bound` make the atoms true together. -/
def Witnessed (M : Set Triple) (σ : Variable → Term) (bound : Variable → Prop)
    (atoms : List Triple) : Prop :=
  ∃ τ : Variable → Term, (∀ v, (τ v).IsIndividual) ∧ (∀ v, ¬ bound v → τ v = σ v) ∧
    ∀ t ∈ atoms, t.assign τ ∈ M

section
variable {p q : Variable → Prop} {ts us : List Triple}

open Classical in
/-- Only variables of the atoms matter. -/
theorem Witnessed.restrict (h : Witnessed M σ p ts) (hσ : ∀ v, (σ v).IsIndividual)
    (hpq : ∀ t ∈ ts, ∀ v ∈ t.vars, p v → q v) : Witnessed M σ q ts := by
  obtain ⟨τ, hτ, hagree, htrue⟩ := h
  refine ⟨fun v => if q v then τ v else σ v, fun v => ?_, fun v hv => if_neg hv, fun t ht => ?_⟩
  · dsimp only
    split
    · exact hτ v
    · exact hσ v
  · refine Triple.assign_congr (fun v hv => ?_) ▸ htrue t ht
    split
    · rfl
    · rename_i hnot
      exact hagree v fun hp => hnot (hpq t ht v hv hp)

open Classical in
/-- Atoms that do not have each other's bound variables are true together. -/
theorem Witnessed.append (ht : Witnessed M σ p ts) (hu : Witnessed M σ q us)
    (hq : ∀ t ∈ ts, ∀ v ∈ t.vars, ¬ q v) (hp : ∀ t ∈ us, ∀ v ∈ t.vars, ¬ p v) :
    Witnessed M σ (fun v => p v ∨ q v) (ts ++ us) := by
  obtain ⟨τ, hτ, hagree, htrue⟩ := ht
  obtain ⟨υ, hυ, hagreeu, htrueu⟩ := hu
  refine ⟨fun v => if p v then τ v else υ v, fun v => ?_, fun v hv => ?_,
    List.forall_mem_append.mpr ⟨fun t ht => ?_, fun t ht => ?_⟩⟩
  · dsimp only
    split
    · exact hτ v
    · exact hυ v
  · obtain ⟨hnotp, hnotq⟩ := not_or.mp hv
    exact (if_neg hnotp).trans (hagreeu v hnotq)
  · refine Triple.assign_congr (fun v hv => ?_) ▸ htrue t ht
    split
    · rfl
    · rename_i hnotp
      exact (hagree v hnotp).trans (hagreeu v (hq t ht v hv)).symm
  · exact Triple.assign_congr (fun v hv => (if_neg (hp t ht v hv)).symm) ▸ htrueu t ht

end

/-- The atoms of a true head are true together, for some individuals that it binds. -/
theorem HoldsIn.witnessed (h : f.HoldsIn M σ) (hσ : ∀ v, (σ v).IsIndividual)
    {atoms : List Triple} (hatoms : f.conjuncts? = some atoms) (hapart : f.NamedApart) :
    Witnessed M σ (fun v => f.Binds v) atoms := by
  induction f generalizing σ atoms with
  | atom t =>
    cases hatoms
    exact ⟨σ, hσ, fun _ _ => rfl, by simpa using h⟩
  | conj parts ih =>
    rw [holdsIn_conj] at h
    rw [conjuncts?] at hatoms
    rw [NamedApart] at hapart
    simp only [Binds]
    induction parts generalizing atoms with
    | nil =>
      cases hatoms
      exact ⟨σ, hσ, fun _ _ => rfl, by simp⟩
    | cons part rest ihl =>
      obtain ⟨first, others, hfirst, hothers, rfl⟩ := conjunctsOf_cons hatoms
      obtain ⟨ihp, ihr⟩ := List.forall_mem_cons.mp ih
      obtain ⟨hpart, hrest⟩ := List.forall_mem_cons.mp h
      obtain ⟨hapartp, hseparate, hapartr⟩ := hapart
      refine (ihp hpart hσ hfirst hapartp).append (ihl ihr hrest hothers hapartr)
        (fun t ht v hv hbinds => ?_) fun t ht v hv hbinds => ?_
      · obtain ⟨other, hother, hbinds⟩ := someBinds_iff.mp hbinds
        exact (hseparate other hother v).2 hbinds (occurs_of_conjuncts hfirst ht hv)
      · have hoccurs : (conj rest).Occurs v := occurs_of_conjuncts hothers ht hv
        refine hoccurs (allAtoms_conj.mpr fun other hother => ?_)
        exact not_not.mp ((hseparate other hother v).1 hbinds)
  | disj parts _ => cases hatoms
  | exist vars inner ih =>
    obtain ⟨υ, hυ, hagree, hinner⟩ := holdsIn_exist.mp h
    obtain ⟨τ, hτ, hagreei, htrue⟩ := ih hinner hυ hatoms hapart
    have hwitnessed : Witnessed M σ (fun v => v ∈ vars ∨ inner.Binds v) atoms := by
      refine ⟨τ, hτ, fun v hv => ?_, htrue⟩
      obtain ⟨hvars, hbinds⟩ := not_or.mp hv
      rw [hagreei v hbinds, hagree v hvars]
    refine hwitnessed.restrict hσ fun t ht v hv hbound => ?_
    rw [Binds]
    exact hbound.imp_left fun hvars => ⟨hvars, occurs_of_conjuncts hatoms ht hv⟩
  | implies body head _ _ => cases hatoms

theorem Occurs.mem_vars (h : f.Occurs v) {atoms : List Triple}
    (hatoms : f.conjuncts? = some atoms) : v ∈ atoms.flatMap Triple.vars := by
  by_contra hnot
  refine h ((allAtoms_iff_conjuncts hatoms).mpr fun t ht hv => ?_)
  exact hnot (List.mem_flatMap.mpr ⟨t, ht, hv⟩)

theorem Binds.occurs (h : f.Binds v) : f.Occurs v := by
  induction f with
  | atom t => cases h
  | conj parts ih =>
    rw [Binds] at h
    obtain ⟨part, hpart, hbinds⟩ := someBinds_iff.mp h
    exact fun hall => ih part hpart hbinds (allAtoms_conj.mp hall part hpart)
  | disj parts ih =>
    rw [Binds] at h
    obtain ⟨part, hpart, hbinds⟩ := someBinds_iff.mp h
    exact fun hall => ih part hpart hbinds (allAtoms_disj.mp hall part hpart)
  | exist vars inner ih =>
    have hinner : inner.Occurs v := h.elim (fun hbound => hbound.2) ih
    exact fun hall => hinner (allAtoms_exist.mp hall)
  | implies body head ihb ihh =>
    intro hall
    obtain ⟨hbody, hhead⟩ := allAtoms_implies.mp hall
    exact h.elim (fun hb => ihb hb hbody) fun hh => ihh hh hhead

end Formula

namespace Clause

open Formula

variable {c : Clause} {M : Set Triple}

/-- The clause is true in `M` under every assignment of individuals. -/
def HoldsIn (M : Set Triple) (c : Clause) : Prop :=
  ∀ σ : Variable → Term, (∀ v, (σ v).IsIndividual) → c.body.HoldsIn M σ → c.head.HoldsIn M σ

/-- A head into which the clause is taken apart, with the body that it follows from. -/
inductive Reached (c : Clause) : Formula → Formula → Prop
  | whole : Reached c c.head c.body
  | conj {parts : List Formula} {body part : Formula} :
    Reached c (.conj parts) body → part ∈ parts → Reached c part body
  | implies {inner head body : Formula} :
    Reached c (.implies inner head) body → Reached c head (.and [body, inner])

/-- Where the clause holds, a head follows from its body. -/
theorem HoldsIn.reached (h : c.HoldsIn M) {head body : Formula} (hreached : Reached c head body)
    {σ : Variable → Term} (hσ : ∀ v, (σ v).IsIndividual) (hbody : body.HoldsIn M σ) :
    head.HoldsIn M σ := by
  induction hreached with
  | whole => exact h σ hσ hbody
  | conj _ hpart ih => exact holdsIn_conj.mp (ih hbody) _ hpart
  | implies _ ih =>
    obtain ⟨hbody, hinner, _⟩ : _ ∧ _ ∧ True := by simpa using hbody
    exact holdsIn_implies.mp (ih hbody) hinner

/-- The rule is made of the atoms of a head that the clause is taken apart into, and of an
alternative of the body there. -/
def Yields (c : Clause) (head : Formula) (rule : HornRule) : Prop :=
  ∃ body options alternative atoms, Reached c head body ∧ body.alternatives = .ok options ∧
    alternative ∈ options ∧ head.conjuncts? = some atoms ∧
    rule = .ofAtoms rule.label alternative atoms

theorem exists_yields {rule : HornRule} (h : rule ∈ c.normalize.rules) :
    ∃ head, c.Yields head rule := by
  obtain ⟨label, atoms, alternative, hcandidate, rfl⟩ := mem_normalize_rules h
  obtain ⟨part, hpart, hcandidate⟩ := mem_candidates.mp hcandidate
  obtain ⟨body, options, rfl, halternatives, halt, _⟩ := Part.mem_candidates hcandidate
  have hreached : ∃ head, Reached c head body ∧ head.conjuncts? = some atoms := by
    refine split_forall (I := fun i => Reached c i.head i.body)
      (J := fun atoms body => ∃ head, Reached c head body ∧ head.conjuncts? = some atoms)
      ?_ ?_ ?_ ?_ _ ?_ _ _ hpart
    · exact fun t body hi => ⟨.atom t, hi, rfl⟩
    · exact fun parts body hi part hpart => hi.conj hpart
    · exact fun inner head body hi => hi.implies
    · exact fun vars inner body atoms hi hconjuncts => ⟨.exist vars inner, hi, hconjuncts⟩
    · exact List.forall_mem_singleton.mpr .whole
  obtain ⟨head, hreached, hconjuncts⟩ := hreached
  exact ⟨head, body, options, alternative, atoms, hreached, halternatives, halt, hconjuncts, rfl⟩

theorem Reached.allAtoms {head body : Formula} (h : Reached c head body) {p : Triple → Prop}
    (hhead : c.head.AllAtoms p) (hbody : c.body.AllAtoms p) :
    head.AllAtoms p ∧ body.AllAtoms p := by
  induction h with
  | whole => exact ⟨hhead, hbody⟩
  | conj _ hpart ih => exact ⟨allAtoms_conj.mp ih.1 _ hpart, ih.2⟩
  | implies _ ih =>
    obtain ⟨hinner, hhead⟩ := allAtoms_implies.mp ih.1
    exact ⟨hhead, by simpa using ⟨ih.2, hinner⟩⟩

/-- **Quantifiers of a clause are those of its rules** where their variables are named apart.
If the clause holds, so does each rule whose body has no variable that its head binds, and these
variables are existential in it. -/
theorem bound_existential (hblank : c.BlankFree) (h : c.HoldsIn M) {rule : HornRule}
    (hrule : rule ∈ c.normalize.rules) : (∃ head, c.Yields head rule) ∧
      ∀ head, c.Yields head rule → head.NamedApart →
        (∀ v, head.Binds v → v ∉ rule.bodyVariables) →
          rule.HoldsIn M ∧ ∀ v, head.Binds v → v ∈ rule.existentials := by
  refine ⟨exists_yields hrule, fun head hyields hapart hfresh => ?_⟩
  obtain ⟨body, options, alternative, atoms, hreached, halternatives, halt, hconjuncts, hmade⟩ :=
    hyields
  obtain ⟨hheadAtoms, hbodyAtoms⟩ := hreached.allAtoms hblank.1 hblank.2
  rw [HornRule.ofAtoms_of_not_isBlank (hbodyAtoms.alternatives halternatives alternative halt)
    (hheadAtoms.conjuncts hconjuncts)] at hmade
  rw [hmade] at hfresh ⊢
  have hexistential : ∀ v, head.Binds v → v ∈ HornRule.headOnly alternative atoms :=
    fun v hv => HornRule.mem_headOnly.mpr ⟨hv.occurs.mem_vars hconjuncts, hfresh v hv⟩
  refine ⟨fun σ hσ htrue => ?_, hexistential⟩
  have hbody := holdsIn_of_holds hσ halternatives
    ((holds_iff_alternatives halternatives).mpr ⟨alternative, halt, htrue⟩)
  obtain ⟨τ, hτ, hagree, hall⟩ :=
    (h.reached hreached hσ hbody).witnessed hσ hconjuncts hapart
  exact ⟨τ, hτ, fun v hv => hagree v fun hbinds => hv (hexistential v hbinds), hall⟩

/-- Where `x` has something by `q`, a member `x` of `A` has one of `C` by `p`. -/
def owning : Clause where
  label := "owning"
  head := .implies (classAtom (.var ⟨"x"⟩) (.iri "A")) (.exist [⟨"y"⟩]
    (.and [.atom ⟨.var ⟨"x"⟩, .iri "p", .var ⟨"y"⟩⟩, classAtom (.var ⟨"y"⟩) (.iri "C")]))
  body := .exist [⟨"z"⟩] (.atom ⟨.var ⟨"x"⟩, .iri "q", .var ⟨"z"⟩⟩)

/-- Its head, as far as it is taken apart. -/
def owned : Formula := .exist [⟨"y"⟩]
  (.and [.atom ⟨.var ⟨"x"⟩, .iri "p", .var ⟨"y"⟩⟩, classAtom (.var ⟨"y"⟩) (.iri "C")])

def owners : Set Triple :=
  {⟨.iri "a", .iri "q", .iri "b"⟩, ⟨.iri "a", .iri Vocabulary.Rdf.type, .iri "A"⟩,
    ⟨.iri "a", .iri "p", .iri "c"⟩, ⟨.iri "c", .iri Vocabulary.Rdf.type, .iri "C"⟩}

def owningRule : HornRule where
  label := "owning"
  body := [⟨.var ⟨"x"⟩, .iri "q", .var ⟨"z"⟩⟩, ⟨.var ⟨"x"⟩, .iri Vocabulary.Rdf.type, .iri "A"⟩]
  head := [⟨.var ⟨"x"⟩, .iri "p", .var ⟨"y"⟩⟩, ⟨.var ⟨"y"⟩, .iri Vocabulary.Rdf.type, .iri "C"⟩]
  existentials := [⟨"y"⟩]

theorem bound_existential_of_owning : owning.BlankFree ∧ owning.HoldsIn owners ∧
    owning.normalize.rules = [owningRule] ∧ owned.NamedApart ∧ owned.Binds ⟨"y"⟩ ∧
    owningRule.HoldsIn owners := by
  have hblank : owning.BlankFree := by
    simp [BlankFree, owning, classAtom, Triple.terms, Term.isBlank]
  have hholds : owning.HoldsIn owners := by
    intro σ hσ _
    refine holdsIn_implies.mpr fun hmember => ?_
    have hx : σ ⟨"x"⟩ = .iri "a" := by
      simpa [classAtom, owners, Triple.assign, Triple.map, Term.assign] using hmember
    refine holdsIn_exist_of_update hσ (rfl : (Term.iri "c").IsIndividual) ?_
    simp [classAtom, owners, Triple.assign, Triple.map, Term.assign, hx]
  have hrules : owning.normalize.rules = [owningRule] := by decide +kernel
  have hapart : owned.NamedApart := by
    simp [owned, Formula.and, classAtom, NamedApart, AllNamedApart, Binds]
  have hbinds : ∀ v, owned.Binds v ↔ v = ⟨"y"⟩ := by
    simp [owned, Formula.and, classAtom, Binds, SomeBinds, Occurs, Triple.mem_vars, Term.var?]
  have hyields : owning.Yields owned owningRule :=
    ⟨_, _, _, _, .implies .whole, rfl, List.mem_singleton_self _, rfl, by decide +kernel⟩
  obtain ⟨_, hall⟩ := bound_existential hblank hholds (hrules ▸ List.mem_singleton_self owningRule)
  refine ⟨hblank, hholds, hrules, hapart, (hbinds _).mpr rfl, (hall owned hyields hapart ?_).1⟩
  intro v hv
  rw [(hbinds v).mp hv]
  decide

/-- A value `y` of `q` in the body, and another `y` of `p` in the head. -/
def captured : Clause where
  label := "captured"
  head := .exist [⟨"y"⟩] (.atom ⟨.var ⟨"x"⟩, .iri "p", .var ⟨"y"⟩⟩)
  body := .atom ⟨.var ⟨"x"⟩, .iri "q", .var ⟨"y"⟩⟩

/-- The rule takes the two for one, and nothing is existential. -/
def capturedRule : HornRule where
  label := "captured"
  body := [⟨.var ⟨"x"⟩, .iri "q", .var ⟨"y"⟩⟩]
  head := [⟨.var ⟨"x"⟩, .iri "p", .var ⟨"y"⟩⟩]

theorem captured_rule : captured.BlankFree ∧ captured.normalize.rules = [capturedRule] ∧
    VariableFree {⟨.iri "a", .iri "q", .iri "b"⟩, ⟨.iri "a", .iri "p", .iri "c"⟩} ∧
    captured.HoldsIn {⟨.iri "a", .iri "q", .iri "b"⟩, ⟨.iri "a", .iri "p", .iri "c"⟩} ∧
    ¬ capturedRule.HoldsIn {⟨.iri "a", .iri "q", .iri "b"⟩, ⟨.iri "a", .iri "p", .iri "c"⟩} := by
  refine ⟨by simp [BlankFree, captured, Triple.terms, Term.isBlank], by decide +kernel, ?_, ?_, ?_⟩
  · rintro t (rfl | rfl) <;> rfl
  · intro σ hσ hbody
    have hx : σ ⟨"x"⟩ = .iri "a" := by
      have hpair : σ ⟨"x"⟩ = .iri "a" ∧ σ ⟨"y"⟩ = .iri "b" := by
        simpa [captured, Triple.assign, Triple.map, Term.assign] using hbody
      exact hpair.1
    refine holdsIn_exist_of_update hσ (rfl : (Term.iri "c").IsIndividual) ?_
    simp [Triple.assign, Triple.map, Term.assign, hx]
  · intro h
    obtain ⟨τ, _, hagree, hhead⟩ := h (fun v => if v = ⟨"x"⟩ then .iri "a" else .iri "b")
      (fun v => by split <;> rfl)
      (by simp [capturedRule, Triple.assign, Triple.map, Term.assign])
    have hτ := funext fun v => hagree v List.not_mem_nil
    simp [capturedRule, Triple.assign, Triple.map, Term.assign, hτ] at hhead

end Clause

end HornReasoner
