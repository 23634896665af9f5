import HornReasoner.Ontology.Axiom
import HornReasoner.Proofs.Ontology.Membership
import HornReasoner.Proofs.Rule.Atoms

/-! The rules of an inclusion.

An inclusion between classes becomes one clause, and the clause Horn rules. An instance of
the one class that is none of the other gives an assignment that makes the clause false, and
back; so the rules hold where the inclusion does, and if nothing was left out, only there. -/
namespace HornReasoner

namespace Ontology

theorem expressing_eq_ok {α : Type} {act : Expressing α} {a : α} {p p' : Progress}
    (h : expressing act p = (.ok a, p')) : act p.context = (.ok a, p'.context) := by
  have hresult : (act p.context).1 = .ok a := congrArg Prod.fst h
  have hcontext : (act p.context).2 = p'.context := congrArg (fun e => e.2.context) h
  rw [← hresult, ← hcontext]
  rfl

theorem inclusion_eq_ok {label : String} {sub sup : ClassExpr} {p p' : Progress} {clause : Clause}
    (h : inclusion label sub sup p = (.ok clause, p')) : ∃ next last,
      inBody sub x p.context = (.ok clause.body, next) ∧
        inHead sup x next = (.ok clause.head, last) := by
  rw [inclusion] at h
  obtain ⟨body, next, hbody, h⟩ := bind_eq_ok h
  obtain ⟨head, last, hhead, h⟩ := bind_eq_ok h
  obtain ⟨rfl, rfl⟩ := pure_eq_ok h
  exact ⟨_, _, expressing_eq_ok hbody, expressing_eq_ok hhead⟩

theorem known_xy {v : Variable} (hv : v = ⟨"x"⟩ ∨ v = ⟨"y"⟩) (c : Context) : Known c v := by
  intro k _ heq
  have hname := congrArg (fun v : Variable => v.name.toList) heq
  rcases hv with rfl | rfl <;> simp [madeVariable] at hname

theorem known_x (c : Context) : Known c ⟨"x"⟩ := known_xy (.inl rfl) c

theorem Walk.push_eq {w : Walk} {clause : Clause}
    (h : (w.push clause).clauses = w.clauses ++ [clause]) :
    clause.head.isEmptyConj = false ∧ clause.body.isEmptyConj = false := by
  have hlength : (w.push clause).clauses ≠ w.clauses := by
    rw [h]
    exact fun hsame => by simpa using congrArg List.length hsame
  unfold push at hlength
  split at hlength
  · exact absurd rfl hlength
  · rename_i hhead
    split at hlength
    · exact absurd rfl hlength
    · rename_i hbody
      exact ⟨by simpa using hhead, by simpa using hbody⟩

/-! ### The clause -/

section
variable {M : Set Triple} {sub sup : ClassExpr} {v : Variable} {c next last : Context}
  {clause : Clause}

/-- Where the inclusion holds, so does the clause, whatever the made variables are. -/
theorem holds_of_includedIn (hbody : Expresses id sub v c next clause.body)
    (hhead : Expresses Not sup v next last clause.head) (h : sub.IncludedIn M sup)
    {σ : Variable → Term} (hσ : (σ v).IsIndividual) : clause.Holds (At M σ) := by
  intro htrue
  by_contra hfalse
  exact hhead.sound M σ hfalse (h (σ v) hσ (hbody.sound M σ htrue))

/-- An instance of `sub` that is none of `sup` makes the clause false for some values of the
made variables. -/
theorem includedIn_of_holds (hbody : Expresses id sub v c next clause.body)
    (hhead : Expresses Not sup v next last clause.head) (hv : Known c v) (hM : VariableFree M)
    (h : ∀ σ : Variable → Term, (∀ w, (σ w).IsIndividual) → clause.Holds (At M σ)) :
    sub.IncludedIn M sup := by
  intro individual hindividual hsub
  by_contra hsup
  obtain ⟨τ, hτ, htrue⟩ := hbody.complete M (fun _ => individual) hM (fun _ => hindividual) hsub
  have hτv : τ v = individual := hτ.agree v hv.not_between
  have hnext := hv.mono hbody.grows
  obtain ⟨υ, hυ, hfalse⟩ := hhead.complete M τ hM hτ.individuals (by rw [hτv]; exact hsup)
  exact hfalse (h υ hυ.individuals ((hυ.holds_iff hnext hbody.atoms M).mpr htrue))

end

/-! ### The rules -/

section
variable {M : Set Triple} {clause : Clause}

/-- Where the clause is true, its rules hold. -/
theorem rules_hold (hhead : clause.head.AllAtoms fun t => ∀ x ∈ t.terms, x.isBlank = false)
    (hbody : clause.body.AllAtoms fun t => ∀ x ∈ t.terms, x.isBlank = false)
    (h : ∀ σ : Variable → Term, (∀ w, (σ w).IsIndividual) → clause.Holds (At M σ)) :
    ∀ rule ∈ clause.normalize.rules, rule.HoldsIn M := by
  intro rule hrule
  obtain ⟨label, head, body, hcandidate, rfl⟩ := Clause.mem_normalize_rules hrule
  obtain ⟨hheadAtoms, hbodyAtoms⟩ := Clause.candidates_atoms hhead hbody hcandidate
  rw [HornRule.ofAtoms_of_not_isBlank hbodyAtoms hheadAtoms]
  intro σ hσ htrue
  exact ⟨σ, hσ, fun _ _ => rfl, (h σ hσ).candidates hcandidate htrue⟩

/-- If nothing was left out and the rules hold, the clause is true. -/
theorem holds_of_rules_hold (hhead : clause.head.AllAtoms fun t => ∀ x ∈ t.terms, x.isBlank = false)
    (hbody : clause.body.AllAtoms fun t => ∀ x ∈ t.terms, x.isBlank = false)
    (hsafe : ∀ head body, .rule head body ∈ clause.candidates →
      ∀ t ∈ head, t.vars ⊆ body.flatMap Triple.vars) (hdropped : clause.normalize.dropped = [])
    (h : ∀ rule ∈ clause.normalize.rules, rule.HoldsIn M) {σ : Variable → Term}
    (hσ : ∀ w, (σ w).IsIndividual) : clause.Holds (At M σ) := by
  refine Clause.holds_of_candidates (Clause.not_dropped_of_normalize hdropped) ?_
  intro head body hcandidate htrue
  obtain ⟨label, hrule⟩ := Clause.exists_mem_normalize_rules hcandidate
  obtain ⟨hheadAtoms, hbodyAtoms⟩ := Clause.candidates_atoms hhead hbody hcandidate
  have hholds := h _ hrule
  rw [HornRule.ofAtoms_of_not_isBlank hbodyAtoms hheadAtoms,
    HornRule.headOnly_eq_nil_iff.mpr (hsafe head body hcandidate)] at hholds
  obtain ⟨τ, _, hagree, hall⟩ := hholds σ hσ htrue
  have heq : τ = σ := funext fun w => hagree w List.not_mem_nil
  exact heq ▸ hall

end

/-- **The rules of an inclusion mean the inclusion.** In any set of triples without
variables all rules hold if the one class is included in the other; and if nothing was left
out, it is included wherever all rules hold. -/
theorem inclusion_rules {label : String} {sub sup : ClassExpr} {p p' : Progress} {clause : Clause}
    (hsub : sub.Ground) (hsup : sup.Ground) (h : inclusion label sub sup p = (.ok clause, p'))
    {w : Walk} (hkept : (w.push clause).clauses = w.clauses ++ [clause]) {M : Set Triple}
    (hM : VariableFree M) :
    (sub.IncludedIn M sup → ∀ rule ∈ clause.normalize.rules, rule.HoldsIn M) ∧
      (clause.normalize.dropped = [] → (∀ rule ∈ clause.normalize.rules, rule.HoldsIn M) →
        sub.IncludedIn M sup) := by
  obtain ⟨next, last, hinBody, hinHead⟩ := inclusion_eq_ok h
  have hv := known_x p.context
  have hbody := inBody_expresses hsub hv hinBody
  have hhead := inHead_expresses hsup (hv.mono hbody.grows) hinHead
  have hbodyAtoms := hbody.atoms.mono fun t ht => ht.1
  have hheadAtoms := hhead.atoms.mono fun t ht => ht.1
  constructor
  · intro hincluded
    exact rules_hold hheadAtoms hbodyAtoms fun σ hσ =>
      holds_of_includedIn hbody hhead hincluded (hσ _)
  · intro hdropped hrules
    have hsafe : ∀ head body, .rule head body ∈ clause.candidates →
        ∀ t ∈ head, t.vars ⊆ body.flatMap Triple.vars := by
      intro head body hcandidate
      have hsubTerms := hsub.allTerms.mono fun _ => Term.isIndividual_of_isGround
      have hsupTerms := hsup.allTerms.mono fun _ => Term.isIndividual_of_isGround
      refine Clause.candidates_guarded (Walk.push_eq hkept).2 (inHead_guarded hsupTerms hinHead) ?_
        hcandidate
      intro options hoptions alt halt hne u hu
      rw [List.mem_singleton.mp hu]
      exact inBody_anchored hsubTerms hinBody options hoptions alt halt hne
    exact includedIn_of_holds hbody hhead hv hM fun σ hσ =>
      holds_of_rules_hold hheadAtoms hbodyAtoms hsafe hdropped hrules hσ

/-- Those of `A` to which `p` leads from some `B` or `C`. -/
def reached : ClassExpr :=
  .intersectionOf [.named (.iri "A"), .someValuesFrom (.inverseOf (.named (.iri "p")))
    (.unionOf [.named (.iri "B"), .named (.iri "C")])]

/-- Those from which `q` leads to `D` only. -/
def leading : ClassExpr := .allValuesFrom (.named (.iri "q")) (.named (.iri "D"))

/-- Triples that make `a` one of both classes. -/
def linkage : Set Triple := {t | t ∈ [
  ⟨.iri "b", .iri Vocabulary.Rdf.type, .iri "B"⟩, ⟨.iri "b", .iri "p", .iri "a"⟩,
  (⟨.iri "a", .iri Vocabulary.Rdf.type, .iri "A"⟩ : Triple), ⟨.iri "a", .iri "q", .iri "d"⟩,
  ⟨.iri "d", .iri Vocabulary.Rdf.type, .iri "D"⟩]}

theorem inclusion_rules_of_reached : ∃ clause p',
    inclusion "reached" reached leading {} = (.ok clause, p') ∧
    clause.normalize.dropped = [] ∧ clause.normalize.rules.length = 2 ∧
    reached.Has linkage (.iri "a") ∧ leading.Has linkage (.iri "a") ∧
    (∀ rule ∈ clause.normalize.rules, rule.HoldsIn linkage) ∧
    (reached.IncludedIn linkage leading ↔
      ∀ rule ∈ clause.normalize.rules, rule.HoldsIn linkage) := by
  have hclause : ∃ clause p', inclusion "reached" reached leading {} = (.ok clause, p') ∧
      (({} : Walk).push clause).clauses = ({} : Walk).clauses ++ [clause] ∧
      clause.normalize.dropped = [] ∧ clause.normalize.rules.length = 2 :=
    ⟨_, _, rfl, rfl, rfl, rfl⟩
  obtain ⟨clause, p', hinclusion, hkept, hdropped, hlength⟩ := hclause
  have hreached : reached.Ground := by
    simp [reached, ClassExpr.Ground, ClassExpr.AllGround, PropertyExpr.Ground, Term.isGround]
  have hleading : leading.Ground := by
    simp [leading, ClassExpr.Ground, PropertyExpr.Ground, Term.isGround]
  have hM : VariableFree linkage := by
    rintro t ht
    simp only [linkage, Set.mem_ofPred_eq, List.mem_cons, List.not_mem_nil, or_false] at ht
    rcases ht with rfl | rfl | rfl | rfl | rfl <;> rfl
  have hsub : reached.Has linkage (.iri "a") := by
    refine ClassExpr.has_intersectionOf.mpr (List.forall_mem_cons.mpr ⟨?_, ?_⟩)
    · simp [ClassExpr.Has, linkage]
    · refine List.forall_mem_singleton.mpr ⟨.iri "b", ?_, ?_⟩
      · simp [PropertyExpr.Relates, linkage]
      · exact ClassExpr.has_unionOf.mpr ⟨_, List.mem_cons_self .., by simp [ClassExpr.Has, linkage]⟩
  have hsup : leading.Has linkage (.iri "a") := by
    intro y hy
    have hto : "q" = Vocabulary.Rdf.type ∧ y = .iri "A" ∨ y = .iri "d" := by
      simpa [PropertyExpr.Relates, linkage] using hy
    obtain rfl := hto.resolve_left fun h => absurd h.1 (by decide)
    simp [ClassExpr.Has, linkage]
  have hincluded : reached.IncludedIn linkage leading := by
    intro x _ hx
    have ha : x = .iri "a" := by
      simpa [ClassExpr.Has, linkage] using
        ClassExpr.has_intersectionOf.mp hx _ (List.mem_cons_self ..)
    exact ha ▸ hsup
  obtain ⟨hto, hfrom⟩ := inclusion_rules hreached hleading hinclusion hkept hM
  exact ⟨clause, p', hinclusion, hdropped, hlength, hsub, hsup, hto hincluded, hto,
    hfrom hdropped⟩

end Ontology

end HornReasoner
