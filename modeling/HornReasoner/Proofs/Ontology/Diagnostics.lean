import HornReasoner.Proofs.Ontology.Halves

/-! Ontologies without a diagnostic.

Compiling reports whatever it leaves out, and forgets no report (`Leaves`). So where it reports
nothing, each axiom has clauses and each clause that concludes something is kept
(`Walk.foldl_add_silent`); an inclusion of classes that the graph states has its clause
(`Linked.exists_clause`). -/
namespace HornReasoner.Ontology

open TripleSource

/-! ### Actions that report nothing -/

/-- The action leaves what `f` sees of the state. -/
def Leaves {σ α β : Type} (f : σ → β) (act : ExceptT OntologyError (StateM σ) α) : Prop :=
  ∀ s, f (act s).2 = f s

namespace Leaves
variable {σ α β γ : Type} {f : σ → β}

theorem pure (a : α) : Leaves f (Pure.pure a : ExceptT OntologyError (StateM σ) α) := fun _ => rfl

theorem throw (e : OntologyError) :
    Leaves f (MonadExcept.throw e : ExceptT OntologyError (StateM σ) α) := fun _ => rfl

theorem bind {act : ExceptT OntologyError (StateM σ) α} {k : α → ExceptT OntologyError (StateM σ) γ}
    (h : Leaves f act) (hk : ∀ a, Leaves f (k a)) : Leaves f (act >>= k) := by
  intro s
  show f (ExceptT.bindCont k (act s).1 (act s).2).2 = f s
  cases (act s).1 with
  | error e => exact h s
  | ok a => exact (hk a _).trans (h s)

end Leaves

theorem allInBody_leaves {β : Type} {f : Context → β} {parts : List ClassExpr} {x : Term}
    (h : ∀ part ∈ parts, Leaves f (inBody part x)) : Leaves f (allInBody parts x) := by
  induction parts with
  | nil => exact .pure []
  | cons part rest ih =>
    obtain ⟨hpart, hrest⟩ := List.forall_mem_cons.mp h
    exact hpart.bind fun _ => (ih hrest).bind fun _ => .pure _

theorem allInHead_leaves {β : Type} {f : Context → β} {parts : List ClassExpr} {x : Term}
    (h : ∀ part ∈ parts, Leaves f (inHead part x)) : Leaves f (allInHead parts x) := by
  induction parts with
  | nil => exact .pure []
  | cons part rest ih =>
    obtain ⟨hpart, hrest⟩ := List.forall_mem_cons.mp h
    exact hpart.bind fun _ => (ih hrest).bind fun _ => .pure _

theorem freshVariable_leaves : Leaves Context.diagnostics freshVariable := fun _ => rfl

theorem inBody_leaves (cls : ClassExpr) (x : Term) : Leaves Context.diagnostics (inBody cls x) := by
  induction cls generalizing x with
  | named k => exact .pure _
  | thing => exact .pure _
  | intersectionOf parts ih =>
    exact (allInBody_leaves fun part hpart => ih part hpart x).bind fun _ => .pure _
  | unionOf parts ih =>
    exact (allInBody_leaves fun part hpart => ih part hpart x).bind fun _ => .pure _
  | someValuesFrom property filler ih =>
    exact freshVariable_leaves.bind fun y => (ih y).bind fun _ => .pure _
  | hasValue property value => exact .pure _
  | nothing | complementOf _ _ | oneOf _ | allValuesFrom _ _ _ | cardinality _ _ _ => exact .throw _

theorem inHead_leaves (cls : ClassExpr) (x : Term) : Leaves Context.diagnostics (inHead cls x) := by
  induction cls generalizing x with
  | named k => exact .pure _
  | thing => exact .pure _
  | intersectionOf parts ih =>
    exact (allInHead_leaves fun part hpart => ih part hpart x).bind fun _ => .pure _
  | unionOf parts ih =>
    exact (allInHead_leaves fun part hpart => ih part hpart x).bind fun _ => .pure _
  | allValuesFrom property filler ih =>
    exact freshVariable_leaves.bind fun y => (ih y).bind fun _ => .pure _
  | hasValue property value => exact .pure _
  | nothing | complementOf _ _ | oneOf _ | someValuesFrom _ _ _ | cardinality _ _ _ => exact .throw _

/-- The diagnostics so far. -/
def Progress.diagnostics (p : Progress) : List Diagnostic := p.context.diagnostics

theorem reading_leaves {α : Type} (act : Reading α) :
    Leaves Progress.diagnostics (reading act) := fun _ => rfl

theorem expressing_leaves {α : Type} {act : Expressing α} (h : Leaves Context.diagnostics act) :
    Leaves Progress.diagnostics (expressing act) := fun p => h p.context

theorem inclusion_leaves (label : String) (sub sup : ClassExpr) :
    Leaves Progress.diagnostics (inclusion label sub sup) :=
  (expressing_leaves (inBody_leaves sub x)).bind fun _ =>
    (expressing_leaves (inHead_leaves sup x)).bind fun _ => .pure _

/-- Compiling an axiom adds no diagnostic; the walk does, if it fails. -/
theorem clauses_leaves {σ : Type} [TripleSource σ] (source : σ) (a : Axiom) :
    Leaves Progress.diagnostics (a.clauses source) := by
  cases a with
  | subClassOf sub sup =>
    exact (reading_leaves _).bind fun _ => (reading_leaves _).bind fun _ =>
      (inclusion_leaves _ _ _).bind fun _ => .pure _
  | equivalentClass left right =>
    exact (reading_leaves _).bind fun _ => (reading_leaves _).bind fun _ =>
      (inclusion_leaves _ _ _).bind fun _ => (inclusion_leaves _ _ _).bind fun _ => .pure _
  | intersection cls members =>
    exact (reading_leaves _).bind fun _ => (inclusion_leaves _ _ _).bind fun _ =>
      (inclusion_leaves _ _ _).bind fun _ => .pure _
  | union cls members =>
    exact (reading_leaves _).bind fun _ => (inclusion_leaves _ _ _).bind fun _ => .pure _
  | domain p cls | range p cls =>
    exact (reading_leaves _).bind fun _ => (reading_leaves _).bind fun _ =>
      (expressing_leaves (inHead_leaves _ _)).bind fun _ => .pure _
  | subPropertyOf sub sup | equivalentProperty sub sup =>
    exact (reading_leaves _).bind fun _ => (reading_leaves _).bind fun _ => .pure _
  | inverse _ _ | transitive _ | symmetric _ | inexpressible _ _ => exact .pure _

theorem isProper_of_refusal {c : Clause} (h : refusal? c = none) :
    c.head.isEmptyConj = true ∨ c.isProper = true := by
  cases hhead : c.head.isEmptyConj with
  | true => exact .inl rfl
  | false => exact .inr (by simpa [refusal?, Clause.isProper, hhead] using h)

/-- Nothing is said of an axiom whose clauses are kept, but for those that conclude nothing. -/
theorem Axiom.ok_of_remarks {a : Axiom} {result : Except OntologyError (List Clause)}
    (h : a.remarks result = []) : ∃ cs, result = .ok cs ∧ ∀ c ∈ cs, refusal? c = none := by
  cases result with
  | error error => cases a <;> cases h
  | ok cs =>
    refine ⟨cs, rfl, ?_⟩
    cases a with
    | inexpressible predicate cls => cases h
    | _ => exact List.filterMap_eq_nil_iff.mp h

variable {g : Graph}

namespace Walk

/-- The clause is kept, unless it concludes nothing. -/
def Kept (w : Walk) (c : Clause) : Prop := c.head.isEmptyConj = true ∨ c ∈ w.clauses

theorem Kept.mono {w w' : Walk} {c : Clause} (h : w.Kept c) (hsubset : w.clauses ⊆ w'.clauses) :
    w'.Kept c :=
  h.imp_right fun hc => hsubset hc

/-- An axiom without a diagnostic has clauses, and these are kept. -/
theorem add_silent {w : Walk} {a : Axiom} (h : (w.add g a).progress.diagnostics = []) :
    w.progress.diagnostics = [] ∧ ∃ cs p, a.clauses g w.progress = (.ok cs, p) ∧
      ∀ c ∈ cs, (w.add g a).Kept c := by
  have hleaves : (a.clauses g w.progress).2.diagnostics = w.progress.diagnostics :=
    clauses_leaves g a w.progress
  rw [add_eq_extend] at h ⊢
  obtain ⟨hp, hremarks⟩ := List.append_eq_nil_iff.mp h
  obtain ⟨cs, hcs, hrefused⟩ := Axiom.ok_of_remarks hremarks
  refine ⟨hleaves.symm.trans hp, cs, _, Prod.ext hcs rfl, fun c hc => ?_⟩
  refine (isProper_of_refusal (hrefused c hc)).imp_right fun hproper => ?_
  rw [hcs]
  exact List.mem_append_right _ (List.mem_filter.mpr ⟨hc, hproper⟩)

/-- So have all axioms of a walk without a diagnostic. -/
theorem foldl_add_silent (hg : Unmade g) {axioms : List Axiom}
    (haxioms : ∀ a ∈ axioms, a.AllTerms (Mentions g)) {w : Walk} (hw : w.progress.reading = [])
    (h : (axioms.foldl (add g) w).progress.diagnostics = []) :
    w.progress.diagnostics = [] ∧ ∀ a ∈ axioms, ∃ p cs p', p.reading = [] ∧
      a.clauses g p = (.ok cs, p') ∧ ∀ c ∈ cs, (axioms.foldl (add g) w).Kept c := by
  induction axioms generalizing w with
  | nil => exact ⟨h, by simp⟩
  | cons a rest ih =>
    obtain ⟨ha, hrest⟩ := List.forall_mem_cons.mp haxioms
    obtain ⟨_, hreading⟩ := add_eq_append hg hw ha
    obtain ⟨hadd, hothers⟩ := ih hrest hreading h
    obtain ⟨hsilent, cs, p', hclauses, hkept⟩ := add_silent hadd
    obtain ⟨_, hsubset, _⟩ := foldl_add hg hrest hreading
    exact ⟨hsilent, List.forall_mem_cons.mpr ⟨⟨w.progress, cs, p', hw, hclauses,
      fun c hc => (hkept c hc).mono hsubset⟩, hothers⟩⟩

end Walk

theorem compile_diagnostics (g : Graph) : (compile g).diagnostics =
    ((Axiom.all g).foldl (Walk.add g) {}).progress.diagnostics ++
      (compile g).clauses.flatMap fun c => c.normalize.dropped := by
  rw [compile, Clause.normalizeAll, Progress.diagnostics]

/-- Without a diagnostic no part of a clause is dropped. -/
theorem dropped_eq_nil (hsilent : (compile g).diagnostics = []) {c : Clause}
    (hc : c ∈ (compile g).clauses) : c.normalize.dropped = [] := by
  rw [compile_diagnostics, List.append_eq_nil_iff] at hsilent
  exact List.flatMap_eq_nil_iff.mp hsilent.2 c hc

/-! ### Inclusions -/

/-- The graph states that `a` is included in `b`, on its own or as half of an equivalence. -/
def Linked (g : Graph) (a b : Term) : Prop :=
  ⟨a, .iri Vocabulary.Rdfs.subClassOf, b⟩ ∈ g.toList ∨
    ⟨a, .iri Vocabulary.Owl.equivalentClass, b⟩ ∈ g.toList ∨
    ⟨b, .iri Vocabulary.Owl.equivalentClass, a⟩ ∈ g.toList

/-- The clause of the inclusion of `a` in `b`. It is kept unless it concludes nothing. -/
structure IsClauseOf (g : Graph) (a b : Term) (c : Clause) : Prop where
  inclusion : ∃ A B label p p', Reads g a A ∧ Reads g b B ∧ inclusion label A B p = (.ok c, p')
  kept : c.head.isEmptyConj = true ∨ c ∈ (compile g).clauses

theorem Linked.mentions {a b : Term} (h : Linked g a b) : Mentions g a ∧ Mentions g b := by
  rcases h with h | h | h
  · exact mentions_of_mem h
  · exact mentions_of_mem h
  · exact (mentions_of_mem h).symm

/-- Without a diagnostic each inclusion that is stated has a clause. -/
theorem Linked.exists_clause {a b : Term} (h : Linked g a b) (hg : Unmade g)
    (hsilent : (compile g).diagnostics = []) : ∃ c, IsClauseOf g a b c := by
  rw [compile_diagnostics, List.append_eq_nil_iff] at hsilent
  obtain ⟨_, hall⟩ := Walk.foldl_add_silent hg Axiom.mentions_all (w := {}) rfl hsilent.1
  simp only [Walk.Kept, ← compile_clauses] at hall
  have hequivalence : ∀ {l r : Term}, ⟨l, .iri Vocabulary.Owl.equivalentClass, r⟩ ∈ g.toList →
      (∃ c, IsClauseOf g l r c) ∧ ∃ c, IsClauseOf g r l c := by
    intro l r hmem
    obtain ⟨p, cs, p', hp, hclauses, hkept⟩ := hall (.equivalentClass l r) (mem_all.mpr hmem)
    obtain ⟨L, R, forward, backward, next, hL, hR, hforward, hbackward, rfl⟩ :=
      (clauses_equivalentClass hp).mp hclauses
    exact ⟨⟨forward, ⟨L, R, _, p, next, hL, hR, hforward⟩, hkept forward (by simp)⟩,
      backward, ⟨R, L, _, next, p', hR, hL, hbackward⟩, hkept backward (by simp)⟩
  rcases h with hmem | hmem | hmem
  · obtain ⟨p, cs, p', hp, hclauses, hkept⟩ := hall (.subClassOf a b) (mem_all.mpr hmem)
    obtain ⟨A, B, c, hA, hB, hc, rfl⟩ := (clauses_subClassOf hp).mp hclauses
    exact ⟨c, ⟨A, B, _, p, p', hA, hB, hc⟩, hkept c (List.mem_singleton_self c)⟩
  · exact (hequivalence hmem).1
  · exact (hequivalence hmem).2

end HornReasoner.Ontology
