import HornReasoner.Proofs.Ontology.Renumbering

/-! Axioms one by one.

The axioms of a graph are those that its triples state (`mem_all`). Nothing but the numbers of made
variables passes from one to the next, so the rules of an ontology are those of its axioms, each
compiled on its own, up to variants (`compile_covered`). -/
namespace HornReasoner

open TripleSource

/-- The clause concludes something from something. -/
def Clause.isProper (c : Clause) : Bool := !c.head.isEmptyConj && !c.body.isEmptyConj

theorem Clause.isProper_rename {f : Variable → Variable} (c : Clause) :
    (c.rename f).isProper = c.isProper := by
  simp [isProper, rename]

namespace Ontology

variable {g g' : Graph}

/-- No made variable stands in the graph. -/
def Unmade (g : Graph) : Prop := ∀ t ∈ g.toList, ∀ n, .var (madeVariable (n + 1)) ∉ t.terms

/-- The terms of a graph stay if the numbers of its made variables do. -/
theorem rename_eq_of_mentions {h : Nat → Nat}
    (hg : ∀ t ∈ g.toList, ∀ n, .var (madeVariable (n + 1)) ∈ t.terms → h n = n) {u : Term}
    (hu : Mentions g u) : u.rename (renumber h) = u := by
  obtain ⟨t, ht, hu⟩ := Graph.exists_of_mentions hu
  cases u with
  | var v =>
    refine congrArg Term.var ?_
    rcases made_or_not v with ⟨n, rfl⟩ | hv
    · rw [renumber_made, hg t ht n hu]
    · exact renumber_of_not_made hv
  | iri s | literal l | blank s => rfl

theorem Unmade.rename_eq (hg : Unmade g) {h : Nat → Nat} {u : Term} (hu : Mentions g u) :
    u.rename (renumber h) = u :=
  rename_eq_of_mentions (fun t ht n hmade => absurd hmade (hg t ht n)) hu

theorem unmade_of_variableFree (h : VariableFree {t | t ∈ g.toList}) : Unmade g := by
  intro t ht n hmade
  cases h.isIndividual ht hmade

theorem exists_sameDescriptions (g : Graph) : ∃ nodes, SameDescriptions g g nodes :=
  sameDescriptions_of_graphs fun _ _ => Iff.rfl

/-! ### Axioms on their own -/

namespace Axiom

/-- The clauses that are kept of an axiom compiled first. -/
def ownClauses (g : Graph) (a : Axiom) : List Clause :=
  match (a.clauses g {}).1 with
  | .ok cs => cs.filter Clause.isProper
  | .error _ => []

/-- Compiled first, the axiom gives the clause. -/
def Gives (g : Graph) (a : Axiom) (c : Clause) : Prop :=
  ∃ cs p, a.clauses g {} = (.ok cs, p) ∧ c ∈ cs

theorem mem_ownClauses {a : Axiom} {c : Clause} :
    c ∈ a.ownClauses g ↔ a.Gives g c ∧ c.isProper = true := by
  rw [ownClauses, Gives]
  cases hclauses : a.clauses g {} with
  | mk result p =>
    cases result with
    | error error =>
      refine iff_of_false List.not_mem_nil ?_
      rintro ⟨⟨_, _, h, _⟩, _⟩
      cases h
    | ok cs =>
      rw [List.mem_filter]
      refine and_congr_left fun _ => ⟨fun hc => ⟨cs, p, rfl, hc⟩, ?_⟩
      rintro ⟨_, _, h, hc⟩
      cases h
      exact hc

end Axiom

/-- What the walk says of a clause that concludes something from nothing. -/
def refusal? (c : Clause) : Option Diagnostic :=
  if !c.head.isEmptyConj && c.body.isEmptyConj then
    some ⟨c.label, "owl:Thing cannot be a Horn body"⟩
  else none

theorem refusal_rename {f : Variable → Variable} (c : Clause) :
    refusal? (c.rename f) = refusal? c := by
  simp only [refusal?, Clause.rename, Formula.isEmptyConj_rename]

/-- The clauses of a result that are kept. -/
def keptOf : Except OntologyError (List Clause) → List Clause
  | .ok cs => cs.filter Clause.isProper
  | .error _ => []

theorem keptOf_map_rename {f : Variable → Variable} (result : Except OntologyError (List Clause)) :
    keptOf (result.map (List.map (Clause.rename f))) = (keptOf result).map (Clause.rename f) := by
  cases result with
  | error error => rfl
  | ok cs => simp [keptOf, Except.map, List.filter_map, Function.comp_def, Clause.isProper_rename]

namespace Axiom

theorem ownClauses_eq_keptOf (a : Axiom) : a.ownClauses g = keptOf (a.clauses g {}).1 := rfl

/-- What the walk says of an axiom with the result. -/
def remarks (a : Axiom) (result : Except OntologyError (List Clause)) : List Diagnostic :=
  match a, result with
  | inexpressible predicate _, _ =>
    [⟨a.label, Vocabulary.compact predicate ++ " has no Horn translation"⟩]
  | _, .ok cs => cs.filterMap refusal?
  | _, .error error => [⟨a.label, error.message⟩]

theorem remarks_map_rename {f : Variable → Variable} (a : Axiom)
    (result : Except OntologyError (List Clause)) :
    a.remarks (result.map (List.map (Clause.rename f))) = a.remarks result := by
  cases result with
  | error error => rfl
  | ok cs =>
    have hrefused : (cs.map (Clause.rename f)).filterMap refusal? = cs.filterMap refusal? := by
      simp only [List.filterMap_map, Function.comp_def, refusal_rename]
    cases a <;> first | rfl | exact hrefused

end Axiom

namespace Walk
variable {cs cs' : List Clause} {ds ds' : List Diagnostic}

/-- The walk with more clauses and diagnostics, reading and counting what it did. -/
def extend (w : Walk) (cs : List Clause) (ds : List Diagnostic) : Walk where
  progress := { w.progress with
    context := { w.progress.context with diagnostics := w.progress.context.diagnostics ++ ds } }
  clauses := w.clauses ++ cs

theorem extend_nil (w : Walk) : w.extend [] [] = w := by
  rw [extend, List.append_nil, List.append_nil]

theorem extend_extend (w : Walk) :
    (w.extend cs ds).extend cs' ds' = w.extend (cs ++ cs') (ds ++ ds') := by
  rw [extend, extend, extend, List.append_assoc, List.append_assoc]

theorem diagnose_eq_extend (w : Walk) (source message : String) :
    w.diagnose source message = w.extend [] [⟨source, message⟩] := by
  rw [extend, List.append_nil]
  rfl

theorem push_eq_extend (w : Walk) (c : Clause) :
    w.push c = w.extend ([c].filter Clause.isProper) ([c].filterMap refusal?) := by
  unfold push
  split
  · rename_i hhead
    simp [Clause.isProper, refusal?, hhead, extend_nil]
  · split
    · rename_i hhead hbody
      simp [Clause.isProper, refusal?, hhead, hbody, diagnose_eq_extend]
    · rename_i hhead hbody
      simp [Clause.isProper, refusal?, hhead, hbody, extend]

theorem foldl_push_eq_extend (cs : List Clause) (w : Walk) :
    cs.foldl push w = w.extend (cs.filter Clause.isProper) (cs.filterMap refusal?) := by
  induction cs generalizing w with
  | nil => exact w.extend_nil.symm
  | cons c rest ih =>
    rw [List.foldl_cons, ih, push_eq_extend, extend_extend, ← List.filter_append,
      ← List.filterMap_append, List.singleton_append]

/-- The walk keeps clauses of an axiom's result and remarks on it. -/
theorem add_eq_extend (w : Walk) (a : Axiom) :
    w.add g a = ({ w with progress := (a.clauses g w.progress).2 } : Walk).extend
      (keptOf (a.clauses g w.progress).1) (a.remarks (a.clauses g w.progress).1) := by
  cases a with
  | inexpressible predicate cls => exact diagnose_eq_extend w _ _
  | _ =>
    unfold add
    dsimp only
    rcases Axiom.clauses g _ w.progress with ⟨result, p⟩
    cases result with
    | error error => exact diagnose_eq_extend _ _ _
    | ok cs => exact foldl_push_eq_extend cs _

/-- An axiom adds its own clauses, renumbered. -/
theorem add_eq_append (hg : Unmade g) {w : Walk} (hw : w.progress.reading = []) {a : Axiom}
    (ha : a.AllTerms (Mentions g)) :
    (∃ m, (w.add g a).clauses = w.clauses ++ (a.ownClauses g).map (Clause.rename (shift m))) ∧
      (w.add g a).progress.reading = [] := by
  obtain ⟨nodes, hnodes⟩ := exists_sameDescriptions g
  have hahead : Progress.Ahead (· + w.progress.context.nextVariable) {} w.progress :=
    ⟨rfl, hw, ahead_add (Nat.zero_add _).symm⟩
  obtain ⟨hresult, hnext⟩ :=
    clauses_parallel hnodes (fun _ hu => hg.rename_eq hu) ha _ _ hahead
  rw [add_eq_extend, hresult, keptOf_map_rename, ← Axiom.ownClauses_eq_keptOf]
  exact ⟨⟨w.progress.context.nextVariable, rfl⟩, hnext.reading'⟩

/-- The clauses of a walk are those of its axioms, renumbered. -/
theorem foldl_add (hg : Unmade g) {axioms : List Axiom}
    (haxioms : ∀ a ∈ axioms, a.AllTerms (Mentions g)) {w : Walk} (hw : w.progress.reading = []) :
    (∀ c ∈ (axioms.foldl (add g) w).clauses, c ∈ w.clauses ∨
      ∃ a ∈ axioms, ∃ d ∈ a.ownClauses g, ∃ m, c = d.rename (shift m)) ∧
    w.clauses ⊆ (axioms.foldl (add g) w).clauses ∧
    ∀ a ∈ axioms, ∀ d ∈ a.ownClauses g,
      ∃ m, d.rename (shift m) ∈ (axioms.foldl (add g) w).clauses := by
  induction axioms generalizing w with
  | nil => exact ⟨fun c hc => .inl hc, List.Subset.refl _, by simp⟩
  | cons a rest ih =>
    obtain ⟨ha, hrest⟩ := List.forall_mem_cons.mp haxioms
    obtain ⟨⟨m, hclauses⟩, hreading⟩ := add_eq_append hg hw ha
    obtain ⟨hfrom, hsubset, hto⟩ := ih hrest hreading
    rw [hclauses] at hfrom hsubset
    rw [List.foldl_cons]
    refine ⟨fun c hc => ?_, fun c hc => hsubset (List.mem_append_left _ hc), ?_⟩
    · rcases hfrom c hc with hc | ⟨b, hb, d, hd, hrenamed⟩
      · rcases List.mem_append.mp hc with hc | hc
        · exact .inl hc
        · obtain ⟨d, hd, rfl⟩ := List.mem_map.mp hc
          exact .inr ⟨a, List.mem_cons_self .., d, hd, m, rfl⟩
      · exact .inr ⟨b, List.mem_cons_of_mem _ hb, d, hd, hrenamed⟩
    · refine List.forall_mem_cons.mpr ⟨fun d hd => ⟨m, ?_⟩, hto⟩
      exact hsubset (List.mem_append_right _ (List.mem_map_of_mem hd))

end Walk

/-- Each rule of the first list has a variant in the second one. -/
def Covered (rs ss : List HornRule) : Prop := ∀ r ∈ rs, ∃ s ∈ ss, Variant r s

theorem Covered.trans {rs ss ts : List HornRule} (h : Covered rs ss) (h' : Covered ss ts) :
    Covered rs ts := by
  intro r hr
  obtain ⟨s, hs, hvariant⟩ := h r hr
  obtain ⟨t, ht, hvariant'⟩ := h' s hs
  exact ⟨t, ht, hvariant.trans hvariant'⟩

/-- The rules of a renumbered clause are variants of its rules. -/
theorem covered_rename (m : Nat) (c d : Clause) (hhead : d.head = c.head.rename (shift m))
    (hbody : d.body = c.body.rename (shift m)) :
    Covered c.normalize.rules d.normalize.rules ∧ Covered d.normalize.rules c.normalize.rules := by
  obtain ⟨hto, hfrom⟩ := Clause.renamed_rules (shift_injective m) renumber_blank hhead hbody
  constructor
  · intro r hr
    obtain ⟨s, hs, hrenamed⟩ := hto r hr
    exact ⟨s, hs, variant_of_shift hrenamed⟩
  · intro s hs
    obtain ⟨r, hr, hrenamed⟩ := hfrom s hs
    exact ⟨r, hr, (variant_of_shift hrenamed).symm⟩

/-- The second clause is kept if the first one is, and has its rules. -/
structure Supersedes (d c : Clause) : Prop where
  isProper : c.isProper = true → d.isProper = true
  covered : Covered c.normalize.rules d.normalize.rules

theorem Supersedes.refl (c : Clause) : Supersedes c c :=
  ⟨id, fun r hr => ⟨r, hr, .refl r⟩⟩

/-- What an axiom gives on its own, it gives among the others. -/
theorem covered_of_gives (hg : Unmade g) {a : Axiom} (ha : a ∈ Axiom.all g) {c : Clause}
    (hgives : a.Gives g c) (hproper : c.isProper = true) :
    Covered c.normalize.rules (compile g).rules := by
  obtain ⟨_, _, hto⟩ := Walk.foldl_add hg Axiom.mentions_all (w := {}) rfl
  rw [← compile_clauses] at hto
  obtain ⟨m, hmem⟩ := hto a ha c (Axiom.mem_ownClauses.mpr ⟨hgives, hproper⟩)
  intro r hr
  obtain ⟨s, hs, hvariant⟩ := (covered_rename m c (c.rename (shift m)) rfl rfl).1 r hr
  rw [compile_rules]
  exact ⟨s, List.mem_flatMap.mpr ⟨_, hmem, hs⟩, hvariant⟩

/-- If each clause that an axiom gives on its own is superseded in another graph, so are the rules
of the whole ontology. -/
theorem compile_covered (hg : Unmade g) (hg' : Unmade g')
    (h : ∀ a ∈ Axiom.all g, ∀ c, a.Gives g c →
      ∃ b ∈ Axiom.all g', ∃ d, b.Gives g' d ∧ Supersedes d c) :
    Covered (compile g).rules (compile g').rules := by
  obtain ⟨hfrom, _⟩ := Walk.foldl_add hg Axiom.mentions_all (w := {}) rfl
  rw [← compile_clauses] at hfrom
  intro r hr
  rw [compile_rules] at hr
  obtain ⟨c, hc, hr⟩ := List.mem_flatMap.mp hr
  obtain ⟨a, ha, own, hown, m, rfl⟩ := (hfrom c hc).resolve_left List.not_mem_nil
  obtain ⟨hgives, hproper⟩ := Axiom.mem_ownClauses.mp hown
  obtain ⟨b, hb, d, hd, hsupersedes⟩ := h a ha own hgives
  have hrenamed := (covered_rename m own (own.rename (shift m)) rfl rfl).2
  have hcovered := covered_of_gives hg' hb hd (hsupersedes.isProper hproper)
  exact (hrenamed.trans hsupersedes.covered).trans hcovered r hr

/-! ### Axioms of a graph -/

/-- The triples that state the axiom are in the graph. -/
def Axiom.StatedIn (g : Graph) : Axiom → Prop
  | subClassOf sub sup => ⟨sub, .iri Vocabulary.Rdfs.subClassOf, sup⟩ ∈ g.toList
  | equivalentClass left right => ⟨left, .iri Vocabulary.Owl.equivalentClass, right⟩ ∈ g.toList
  | intersection cls members =>
    ⟨cls, .iri Vocabulary.Owl.intersectionOf, members⟩ ∈ g.toList ∧ cls.isBlank = false
  | union cls members =>
    ⟨cls, .iri Vocabulary.Owl.unionOf, members⟩ ∈ g.toList ∧ cls.isBlank = false
  | inverse p q =>
    (⟨p, .iri Vocabulary.Owl.inverseOf, q⟩ ∈ g.toList ∧ p.isBlank = false) ∧ q.isBlank = false
  | transitive p =>
    ⟨p, .iri Vocabulary.Rdf.type, .iri Vocabulary.Owl.transitiveProperty⟩ ∈ g.toList
  | symmetric p =>
    ⟨p, .iri Vocabulary.Rdf.type, .iri Vocabulary.Owl.symmetricProperty⟩ ∈ g.toList
  | domain p cls => ⟨p, .iri Vocabulary.Rdfs.domain, cls⟩ ∈ g.toList
  | range p cls => ⟨p, .iri Vocabulary.Rdfs.range, cls⟩ ∈ g.toList
  | subPropertyOf sub sup => ⟨sub, .iri Vocabulary.Rdfs.subPropertyOf, sup⟩ ∈ g.toList
  | equivalentProperty left right =>
    ⟨left, .iri Vocabulary.Owl.equivalentProperty, right⟩ ∈ g.toList
  | inexpressible predicate cls =>
    (predicate = Vocabulary.Owl.complementOf ∨ predicate = Vocabulary.Owl.oneOf) ∧
      (∃ o, ⟨cls, .iri predicate, o⟩ ∈ g.toList) ∧ cls.isBlank = false

theorem mem_withPredicate {predicate : String} {t : Triple} :
    t ∈ Axiom.withPredicate g predicate ↔ t ∈ g.toList ∧ t.predicate = .iri predicate := by
  show t ∈ g.matching { predicate := some (.iri predicate) } ↔ _
  rw [Graph.matching_eq, List.mem_filter]
  simp [Query.holds]

theorem mentions_of_mem {s o : Term} {p : String} (h : ⟨s, .iri p, o⟩ ∈ g.toList) :
    Mentions g s ∧ Mentions g o := by
  have ht := mem_withPredicate.mpr ⟨h, rfl⟩
  exact ⟨⟨_, _, ht, by simp [Triple.terms]⟩, ⟨_, _, ht, by simp [Triple.terms]⟩⟩

theorem mem_pairsOf {predicate : String} {s o : Term} :
    (s, o) ∈ Axiom.pairsOf g predicate ↔ ⟨s, .iri predicate, o⟩ ∈ g.toList := by
  rw [Axiom.pairsOf, List.mem_map]
  constructor
  · rintro ⟨⟨s, p, o⟩, ht, heq⟩
    obtain ⟨ht, hp⟩ := mem_withPredicate.mp ht
    cases hp
    cases heq
    exact ht
  · exact fun ht => ⟨_, mem_withPredicate.mpr ⟨ht, rfl⟩, rfl⟩

theorem mem_named {predicate : String} {s o : Term} :
    (s, o) ∈ Axiom.named g predicate ↔ ⟨s, .iri predicate, o⟩ ∈ g.toList ∧ s.isBlank = false := by
  rw [← mem_pairsOf, Axiom.named, Axiom.pairsOf, List.mem_map, List.mem_map]
  constructor
  · rintro ⟨t, ht, heq⟩
    obtain ⟨ht, hblank⟩ := List.mem_filter.mp ht
    cases heq
    exact ⟨⟨t, ht, rfl⟩, by simpa using hblank⟩
  · rintro ⟨⟨t, ht, heq⟩, hblank⟩
    cases heq
    exact ⟨t, List.mem_filter.mpr ⟨ht, by simpa using hblank⟩, rfl⟩

theorem mem_typed {cls : String} {p : Term} :
    p ∈ Axiom.typed g cls ↔ ⟨p, .iri Vocabulary.Rdf.type, .iri cls⟩ ∈ g.toList := by
  show p ∈ (g.matching
    { predicate := some (.iri Vocabulary.Rdf.type), object := some (.iri cls) }).map Triple.subject ↔ _
  rw [Graph.matching_eq, List.mem_map]
  constructor
  · rintro ⟨⟨s, q, o⟩, ht, rfl⟩
    obtain ⟨ht, hholds⟩ := List.mem_filter.mp ht
    obtain ⟨rfl, rfl⟩ : q = .iri Vocabulary.Rdf.type ∧ o = .iri cls := by
      simpa [Query.holds] using hholds
    exact ht
  · exact fun ht => ⟨_, List.mem_filter.mpr ⟨ht, by simp [Query.holds]⟩, rfl⟩

/-- The axioms of a graph are those that its triples state. -/
theorem mem_all {a : Axiom} : a ∈ Axiom.all g ↔ a.StatedIn g := by
  cases a with
  | inexpressible predicate cls =>
    simp only [Axiom.StatedIn]
    constructor
    · intro h
      obtain ⟨o, hmem, rfl⟩ | ⟨o, hmem, rfl⟩ :
          (∃ o, (cls, o) ∈ Axiom.named g Vocabulary.Owl.complementOf ∧
            Vocabulary.Owl.complementOf = predicate) ∨
          ∃ o, (cls, o) ∈ Axiom.named g Vocabulary.Owl.oneOf ∧
            Vocabulary.Owl.oneOf = predicate := by
        simpa [Axiom.all] using h
      · obtain ⟨ht, hblank⟩ := mem_named.mp hmem
        exact ⟨.inl rfl, ⟨o, ht⟩, hblank⟩
      · obtain ⟨ht, hblank⟩ := mem_named.mp hmem
        exact ⟨.inr rfl, ⟨o, ht⟩, hblank⟩
    · rintro ⟨rfl | rfl, ⟨o, ht⟩, hblank⟩
      · have hmem := mem_named.mpr ⟨ht, hblank⟩
        simpa [Axiom.all] using .inl ⟨o, hmem⟩
      · have hmem := mem_named.mpr ⟨ht, hblank⟩
        simpa [Axiom.all] using .inr ⟨o, hmem⟩
  | _ => simp [Axiom.all, Axiom.StatedIn, mem_pairsOf, mem_named, mem_typed]

/-- Axioms other than those of classes are stated by describing triples. -/
theorem statedIn_iff (h : ∀ t : Triple, Describes t.predicate → (t ∈ g.toList ↔ t ∈ g'.toList))
    {a : Axiom} (hsub : ∀ sub sup, a ≠ .subClassOf sub sup)
    (hequivalent : ∀ left right, a ≠ .equivalentClass left right) :
    a.StatedIn g ↔ a.StatedIn g' := by
  have hone : ∀ (s : Term) (p : String) (o : Term), Describes (.iri p) →
      (⟨s, .iri p, o⟩ ∈ g.toList ↔ ⟨s, .iri p, o⟩ ∈ g'.toList) := fun s p o hp => h _ hp
  cases a with
  | subClassOf sub sup => exact absurd rfl (hsub sub sup)
  | equivalentClass left right => exact absurd rfl (hequivalent left right)
  | inexpressible predicate cls =>
    refine and_congr_right fun hp => and_congr_left fun _ => exists_congr fun o => hone _ _ _ ?_
    rcases hp with rfl | rfl <;> decide
  | intersection cls members | union cls members =>
    exact and_congr_left fun _ => hone _ _ _ (by decide)
  | inverse p q => exact and_congr_left fun _ => and_congr_left fun _ => hone _ _ _ (by decide)
  | transitive p | symmetric p | domain p cls | range p cls | subPropertyOf sub sup
  | equivalentProperty left right => exact hone _ _ _ (by decide)

end Ontology

end HornReasoner
