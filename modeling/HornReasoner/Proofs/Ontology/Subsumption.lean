import HornReasoner.Proofs.Ontology.Diagnostics
import Mathlib.Logic.Relation

/-! Chains of inclusions.

A class that one inclusion concludes and the next one tests is the same formula on both sides
(`inHead_eq_inBody`). So where the rules of an ontology hold, a member of the class that a chain of
inclusions starts from is one of the class that it ends in (`member_of_chain`), as long as nothing
was left out. The blank nodes of a class get values of their own with each atom that is concluded
(`Seen`); so no two conditions of a rule may have one in common (`HornRule.Separate`). -/
namespace HornReasoner

namespace HornRule

/-- No two conditions of the rule have a blank node of an ontology in common. -/
def Separate (rule : HornRule) : Prop :=
  ∀ a ∈ rule.body, ∀ b ∈ rule.body, a ≠ b →
    ∀ label, ⟨"_" ++ label⟩ ∈ a.vars → ⟨"_" ++ label⟩ ∉ b.vars

theorem separate_of_length {rule : HornRule} (h : rule.body.length = 1) : rule.Separate := by
  obtain ⟨atom, hbody⟩ := List.length_eq_one_iff.mp h
  intro a ha b hb hne
  rw [hbody, List.mem_singleton] at ha hb
  exact absurd (ha.trans hb.symm) hne

/-- The rule concludes no inclusion and no equivalence of classes. An existential variable has a
blank node for its value, so it may be the predicate. -/
def StatesNoInclusion (rule : HornRule) : Prop :=
  ∀ atom ∈ rule.head,
    atom.predicate ∉ [.iri Vocabulary.Rdfs.subClassOf, .iri Vocabulary.Owl.equivalentClass] ∧
      ∀ v ∈ atom.predicate.var?, v ∈ rule.existentials

instance (rule : HornRule) : Decidable rule.StatesNoInclusion :=
  inferInstanceAs (Decidable (∀ atom ∈ rule.head, _ ∧ ∀ v ∈ atom.predicate.var?, _))

end HornRule

namespace Ontology

open TripleSource

/-! ### Classes on both sides -/

/-- Two translations of the same parts agree if those of each part do. -/
theorem InTurn.eq_and_forall {R S : ClassExpr → Context → Context → Formula → Prop}
    {P : Formula → Prop} {parts : List ClassExpr} {c c' d d' : Context} {fs gs : List Formula}
    (h : InTurn R parts c c' fs) (h' : InTurn S parts d d' gs)
    (himp : ∀ part ∈ parts, ∀ c c' d d' f g, R part c c' f → S part d d' g → f = g ∧ P g) :
    fs = gs ∧ ∀ g ∈ gs, P g := by
  induction h generalizing d gs with
  | nil c =>
    cases h'
    simp
  | cons hpart _ ih =>
    cases h' with
    | cons hpart' hrest' =>
      obtain ⟨hfirst, hrest⟩ := List.forall_mem_cons.mp himp
      obtain ⟨rfl, hp⟩ := hfirst _ _ _ _ _ _ hpart hpart'
      obtain ⟨rfl, hps⟩ := ih hrest' hrest
      exact ⟨rfl, List.forall_mem_cons.mpr ⟨hp, hps⟩⟩

/-- A class that can be both concluded and tested is the same formula either way, and has no
variable but the individual. -/
theorem inHead_eq_inBody {cls : ClassExpr} (hcls : cls.AllTerms Term.IsIndividual) {v : Variable}
    {c c' d d' : Context} {head body : Formula} (hhead : inHead cls (.var v) c = (.ok head, c'))
    (hbody : inBody cls (.var v) d = (.ok body, d')) :
    head = body ∧ body.AllAtoms fun t => t.vars ⊆ [v] := by
  have hguarded := inHead_guarded hcls hhead
  induction cls generalizing c c' d d' head body with
  | named k =>
    obtain ⟨rfl, rfl⟩ := pure_eq_ok hhead
    obtain ⟨rfl, rfl⟩ := pure_eq_ok hbody
    exact ⟨rfl, Formula.allAtoms_atom.mpr (Formula.guarded_atom.mp hguarded)⟩
  | thing =>
    obtain ⟨rfl, rfl⟩ := pure_eq_ok hhead
    obtain ⟨rfl, rfl⟩ := pure_eq_ok hbody
    simp
  | intersectionOf parts ih =>
    have hparts := ClassExpr.allTerms_intersectionOf.mp hcls
    obtain ⟨fs, hfs, rfl⟩ := inHead_intersectionOf hhead
    obtain ⟨gs, hgs, rfl⟩ := inBody_intersectionOf hbody
    obtain ⟨rfl, hall⟩ := hfs.eq_and_forall hgs fun part hpart _ _ _ _ f g hf hg =>
      ih part hpart (hparts part hpart) hf hg (inHead_guarded (hparts part hpart) hf)
    exact ⟨rfl, Formula.allAtoms_and.mpr hall⟩
  | unionOf parts ih =>
    have hparts := ClassExpr.allTerms_unionOf.mp hcls
    obtain ⟨fs, hfs, rfl⟩ := inHead_unionOf hhead
    obtain ⟨gs, hgs, rfl⟩ := inBody_unionOf hbody
    obtain ⟨rfl, hall⟩ := hfs.eq_and_forall hgs fun part hpart _ _ _ _ f g hf hg =>
      ih part hpart (hparts part hpart) hf hg (inHead_guarded (hparts part hpart) hf)
    exact ⟨rfl, Formula.allAtoms_or.mpr hall⟩
  | hasValue property value =>
    obtain ⟨rfl, rfl⟩ := pure_eq_ok hhead
    obtain ⟨rfl, rfl⟩ := pure_eq_ok hbody
    exact ⟨rfl, Formula.allAtoms_atom.mpr (Formula.guarded_atom.mp hguarded)⟩
  | allValuesFrom _ _ _ => cases hbody
  | nothing | complementOf _ _ | oneOf _ | someValuesFrom _ _ _ | cardinality _ _ _ => cases hhead

theorem readClass_iri {σ : Type} [TripleSource σ] (source : σ) (s : String) :
    readClass source (.iri s) =
      if s = Vocabulary.Owl.thing then pure .thing
      else if s = Vocabulary.Owl.nothing then pure .nothing
      else pure (.named (.iri s)) := rfl

/-! ### Atoms one by one -/

variable {M : Set Triple} {t : Term} {g : Graph}

/-- Some values put the atom in the set, with `t` for the individual and the atom's blank nodes as
variables. -/
def Seen (M : Set Triple) (t : Term) (atom : Triple) : Prop :=
  ∃ τ : Variable → Term, (∀ v, (τ v).IsIndividual) ∧ τ ⟨"x"⟩ = t ∧
    (atom.map HornRule.withoutBlank).assign τ ∈ M

/-- Atoms that have at most one variable in common, and that always with the same value, are
in the set together. -/
theorem exists_common_assignment {v : Variable} (ht : t.IsIndividual) {atoms : List Triple}
    (hseen : ∀ a ∈ atoms, ∃ τ : Variable → Term,
      (∀ w, (τ w).IsIndividual) ∧ τ v = t ∧ a.assign τ ∈ M)
    (hshared : ∀ a ∈ atoms, ∀ b ∈ atoms, a ≠ b → ∀ w ∈ a.vars, w ∈ b.vars → w = v) :
    ∃ σ : Variable → Term, (∀ w, (σ w).IsIndividual) ∧ σ v = t ∧ ∀ a ∈ atoms, a.assign σ ∈ M := by
  classical
  choose! τ hindividual hvalue hmem using hseen
  let σ : Variable → Term := fun w =>
    if w = v then t else if h : ∃ a ∈ atoms, w ∈ a.vars then τ h.choose w else t
  have hσ : ∀ a ∈ atoms, ∀ w ∈ a.vars, σ w = τ a w := by
    intro a ha w hw
    by_cases heq : w = v
    · simp only [σ, heq, if_true, hvalue a ha]
    · have hsome : ∃ b ∈ atoms, w ∈ b.vars := ⟨a, ha, hw⟩
      obtain ⟨hb, hwb⟩ := hsome.choose_spec
      have hsame : hsome.choose = a := by
        by_contra hne
        exact heq (hshared _ hb a ha hne w hwb hw)
      simp only [σ, if_neg heq, dif_pos hsome, hsame]
  refine ⟨σ, fun w => ?_, if_pos rfl, fun a ha => ?_⟩
  · by_cases heq : w = v
    · simpa only [σ, heq, if_true] using ht
    · by_cases hsome : ∃ a ∈ atoms, w ∈ a.vars
      · simpa only [σ, if_neg heq, dif_pos hsome] using hindividual _ hsome.choose_spec.1 w
      · simpa only [σ, if_neg heq, dif_neg hsome] using ht
  · rw [Triple.assign_congr (hσ a ha)]
    exact hmem a ha

/-- The variables of an atom about the individual, once its blank nodes are variables. -/
theorem mem_vars_of_subset {v w : Variable} {atom : Triple} (h : atom.vars ⊆ [v])
    (hw : w ∈ (atom.map HornRule.withoutBlank).vars) : w = v ∨ ∃ label, w = ⟨"_" ++ label⟩ := by
  have hmem : w ∈ ([atom].map (·.map HornRule.withoutBlank)).flatMap Triple.vars := by simpa using hw
  rcases mem_vars_withoutBlank.mp hmem with hvar | ⟨label, rfl, _⟩
  · have hatom : w ∈ [atom].flatMap Triple.vars := mem_flatMap_vars.mpr hvar
    rw [List.flatMap_singleton] at hatom
    exact .inl (List.mem_singleton.mp (h hatom))
  · exact .inr ⟨label, rfl⟩

/-- Where its rules hold, a clause about classes of the individual alone is true of the atoms one
by one. -/
theorem holds_seen {c : Clause} (hscoped : Scoped g c) (hkept : c.body.isEmptyConj = false)
    (hdropped : c.normalize.dropped = []) (hhead : c.head.AllAtoms fun a => a.vars ⊆ [⟨"x"⟩])
    (hbody : c.body.AllAtoms fun a => a.vars ⊆ [⟨"x"⟩])
    (hrules : ∀ rule ∈ c.normalize.rules, rule.HoldsIn M ∧ rule.Separate) (ht : t.IsIndividual) :
    c.Holds (Seen M t) := by
  refine Clause.holds_of_candidates (Clause.not_dropped_of_normalize hdropped) ?_
  intro head body hcandidate hseen
  obtain ⟨label, hrule⟩ := Clause.exists_mem_normalize_rules hcandidate
  obtain ⟨hholds, hseparate⟩ := hrules _ hrule
  obtain ⟨_, hvars⟩ := Clause.candidates_atoms hhead hbody hcandidate
  obtain ⟨vs, hguarded, hanchored⟩ := hscoped.safe
  have hsafe := Clause.candidates_guarded hkept hguarded hanchored hcandidate
  have hshared : ∀ a ∈ body.map (·.map HornRule.withoutBlank),
      ∀ b ∈ body.map (·.map HornRule.withoutBlank), a ≠ b →
        ∀ w ∈ a.vars, w ∈ b.vars → w = ⟨"x"⟩ := by
    intro a ha b hb hne w hwa hwb
    obtain ⟨atom, hatom, rfl⟩ := List.mem_map.mp ha
    rcases mem_vars_of_subset (hvars atom hatom) hwa with hx | ⟨label, rfl⟩
    · exact hx
    · exact absurd hwb (hseparate _ ha b hb hne label hwa)
  obtain ⟨σ, hσ, hvalue, htrue⟩ :=
    exists_common_assignment (M := M) ht (List.forall_mem_map.mpr hseen) hshared
  obtain ⟨τ, hτ, hagree, hall⟩ := hholds σ hσ htrue
  -- the individual is a variable of the body if it is one of the head
  have hx : ⟨"x"⟩ ∉ (HornRule.ofAtoms label body head).existentials := by
    intro hx
    obtain ⟨hin, hout⟩ := HornRule.mem_headOnly.mp hx
    rcases mem_vars_withoutBlank.mp hin with hvar | ⟨blank, hblank, _⟩
    · obtain ⟨atom, hatom, hvar⟩ := List.mem_flatMap.mp (mem_flatMap_vars.mpr hvar)
      exact hout (mem_vars_withoutBlank.mpr (.inl (mem_flatMap_vars.mp (hsafe atom hatom hvar))))
    · exact IsCompiled.ne_blank (.inl rfl) blank hblank
  intro atom hatom
  exact ⟨τ, hτ, (hagree _ hx).trans hvalue, hall _ (List.mem_map_of_mem hatom)⟩

/-! ### Chains -/

/-- `t` is a member of whatever class `b` stands for, if that can be tested; and the class is one
of the individual alone. -/
def MemberOf (g : Graph) (M : Set Triple) (t b : Term) : Prop :=
  ∀ cls c f c', Reads g b cls → inBody cls x c = (.ok f, c') →
    f.Holds (Seen M t) ∧ f.AllAtoms fun a => a.vars ⊆ [⟨"x"⟩]

section Chains
variable (hfree : ∀ u, Mentions g u → u.IsIndividual) (hsilent : (compile g).diagnostics = [])
  (hrules : ∀ rule ∈ (compile g).rules, rule.HoldsIn M ∧ rule.Separate) (ht : t.IsIndividual)
include hfree hsilent hrules ht

/-- A clause of the ontology leads from members to members. -/
theorem MemberOf.clause {a b : Term} {c : Clause} (h : MemberOf g M t a) (hb : Mentions g b)
    (hc : IsClauseOf g a b c) : MemberOf g M t b := by
  obtain ⟨⟨A, B, label, p, p', hA, hB, hinclusion⟩, hkept⟩ := hc
  obtain ⟨next, last, hbody, hhead⟩ := inclusion_eq_ok hinclusion
  intro cls context f context' hcls hf
  cases hB.unique hcls
  obtain ⟨heq, hatoms⟩ := inHead_eq_inBody ((hB.allTerms hb).mono hfree) hhead hf
  refine ⟨?_, hatoms⟩
  rw [← heq] at hatoms ⊢
  rcases hkept with hempty | hmem
  · have hconj : c.head = .conj [] := by
      revert hempty
      cases c.head with
      | conj parts => cases parts <;> simp [Formula.isEmptyConj]
      | atom | disj | exist | implies => simp [Formula.isEmptyConj]
    rw [hconj]
    simp
  · obtain ⟨htrue, hbodyAtoms⟩ := h A _ _ _ hA hbody
    obtain ⟨hscoped, hbodyKept⟩ := compile_sound hfree c hmem
    have hdropped := dropped_eq_nil hsilent hmem
    refine holds_seen hscoped hbodyKept hdropped hatoms hbodyAtoms (fun rule hrule => ?_) ht htrue
    refine hrules rule ?_
    rw [compile_rules]
    exact List.mem_flatMap.mpr ⟨c, hmem, hrule⟩

/-- What is a member where a chain of inclusions starts is one where it ends. -/
theorem member_of_chain (hg : Unmade g) {C D : String}
    (hmember : ⟨t, .iri Vocabulary.Rdf.type, .iri C⟩ ∈ M)
    (hchain : Relation.ReflTransGen (Linked g) (.iri C) (.iri D))
    (hthing : D ≠ Vocabulary.Owl.thing) (hnothing : D ≠ Vocabulary.Owl.nothing) :
    ⟨t, .iri Vocabulary.Rdf.type, .iri D⟩ ∈ M := by
  have hstart : MemberOf g M t (.iri C) := by
    intro cls c f c' hcls hf
    rw [Reads, readClass_iri] at hcls
    split at hcls
    · obtain ⟨rfl, _⟩ := pure_eq_ok hcls
      obtain ⟨rfl, _⟩ := pure_eq_ok hf
      simp
    · split at hcls
      · obtain ⟨rfl, _⟩ := pure_eq_ok hcls
        cases hf
      · obtain ⟨rfl, _⟩ := pure_eq_ok hcls
        obtain ⟨rfl, _⟩ := pure_eq_ok hf
        refine ⟨Formula.holds_atom.mpr ⟨fun _ => t, fun _ => ht, rfl, hmember⟩,
          Formula.allAtoms_atom.mpr fun v hv => ?_⟩
        exact List.mem_singleton.mpr ((mem_vars_classAtom (k := .iri C) rfl).mp hv)
  have hend : ∀ b, Relation.ReflTransGen (Linked g) (.iri C) b → MemberOf g M t b := by
    intro b hchain
    induction hchain with
    | refl => exact hstart
    | tail _ hlink ih =>
      obtain ⟨c, hc⟩ := hlink.exists_clause hg hsilent
      exact ih.clause hfree hsilent hrules ht hlink.mentions.2 hc
  have hnamed : Reads g (.iri D) (.named (.iri D)) := by
    rw [Reads, readClass_iri, if_neg hthing, if_neg hnothing]
    rfl
  obtain ⟨htrue, _⟩ := hend _ hchain _ {} _ _ hnamed rfl
  obtain ⟨τ, _, rfl, hmem⟩ := Formula.holds_atom.mp htrue
  exact hmem

end Chains

/-! ### Inclusions that are concluded -/

/-- If the triple is an inclusion or an equivalence of classes, a chain of stated ones leads from
one to the other. -/
def Traced (g : Graph) (t : Triple) : Prop :=
  (t.predicate = .iri Vocabulary.Rdfs.subClassOf →
    Relation.ReflTransGen (Linked g) t.subject t.object) ∧
  (t.predicate = .iri Vocabulary.Owl.equivalentClass →
    Relation.ReflTransGen (Linked g) t.subject t.object ∧
      Relation.ReflTransGen (Linked g) t.object t.subject)

theorem traced_of_mem {u : Triple} (hu : u ∈ g.toList) : Traced g u := by
  obtain ⟨s, p, o⟩ := u
  refine ⟨?_, ?_⟩
  · rintro rfl
    exact .single (.inl hu)
  · rintro rfl
    exact ⟨.single (.inr (.inl hu)), .single (.inr (.inr hu))⟩

theorem traced_of_statesNoInclusion {rule : HornRule} (h : rule.StatesNoInclusion)
    {τ : Variable → Term} (hblank : ∀ v ∈ rule.existentials, (τ v).isBlank = true) {atom : Triple}
    (hatom : atom ∈ rule.head) : Traced g (atom.assign τ) := by
  obtain ⟨hconstant, hvariable⟩ := h atom hatom
  have hne : ∀ iri, atom.predicate ≠ .iri iri → (atom.assign τ).predicate ≠ .iri iri := by
    intro iri hiri heq
    change atom.predicate.assign τ = .iri iri at heq
    cases hpredicate : atom.predicate with
    | var v =>
      rw [hpredicate] at heq hvariable
      have hvalue := hblank v (hvariable v rfl)
      rw [show τ v = .iri iri from heq] at hvalue
      cases hvalue
    | iri s | literal l | blank s =>
      rw [hpredicate] at heq hiri
      exact hiri heq
  have hpredicates : atom.predicate ≠ .iri Vocabulary.Rdfs.subClassOf ∧
      atom.predicate ≠ .iri Vocabulary.Owl.equivalentClass := by simpa using hconstant
  exact ⟨fun heq => absurd heq (hne _ hpredicates.1), fun heq => absurd heq (hne _ hpredicates.2)⟩

/-- Bodies and heads of the rules by which inclusions and equivalences of classes combine. -/
def inclusionRules : List (List Triple × List Triple) :=
  let includes (s o : Term) : Triple := ⟨s, .iri Vocabulary.Rdfs.subClassOf, o⟩
  let equals (s o : Term) : Triple := ⟨s, .iri Vocabulary.Owl.equivalentClass, o⟩
  let a : Term := .var ⟨"a"⟩
  let b : Term := .var ⟨"b"⟩
  let c : Term := .var ⟨"c"⟩
  [([includes a b, includes b c], [includes a c]), ([equals a b], [includes a b, includes b a]),
    ([includes a b, includes b a], [equals a b])]

theorem traced_of_inclusionRules {rule : List Triple × List Triple} (h : rule ∈ inclusionRules)
    {τ : Variable → Term} (hbody : ∀ atom ∈ rule.1, Traced g (atom.assign τ)) :
    ∀ atom ∈ rule.2, Traced g (atom.assign τ) := by
  have hne : Vocabulary.Rdfs.subClassOf ≠ Vocabulary.Owl.equivalentClass := by decide
  simp only [inclusionRules, List.mem_cons, List.not_mem_nil, or_false] at h
  rcases h with rfl | rfl | rfl
  · have hab := (hbody _ (List.mem_cons_self ..)).1 rfl
    have hbc := (hbody _ (List.mem_cons_of_mem _ (List.mem_singleton_self _))).1 rfl
    refine List.forall_mem_singleton.mpr ⟨fun _ => hab.trans hbc, fun heq => ?_⟩
    exact absurd (Term.iri.inj heq) hne
  · obtain ⟨hab, hba⟩ := (hbody _ (List.mem_singleton_self _)).2 rfl
    refine List.forall_mem_cons.mpr ⟨⟨fun _ => hab, fun heq => ?_⟩,
      List.forall_mem_singleton.mpr ⟨fun _ => hba, fun heq => ?_⟩⟩
    · exact absurd (Term.iri.inj heq) hne
    · exact absurd (Term.iri.inj heq) hne
  · have hab := (hbody _ (List.mem_cons_self ..)).1 rfl
    have hba := (hbody _ (List.mem_cons_of_mem _ (List.mem_singleton_self _))).1 rfl
    refine List.forall_mem_singleton.mpr ⟨fun heq => ?_, fun _ => ⟨hab, hba⟩⟩
    exact absurd (Term.iri.inj heq).symm hne

end Ontology

end HornReasoner
