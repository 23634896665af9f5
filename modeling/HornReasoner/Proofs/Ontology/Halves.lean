import HornReasoner.Proofs.Ontology.Axioms

/-! Equivalences and their halves.

An equivalence of classes has the rules of both inclusions unless one of the two has no clause;
then it has none, and a rule of the other one is lost (`equivalence_halves`, `half_lost`). -/
namespace HornReasoner.Ontology

open TripleSource

variable {g g' : Graph}

/-! ### Two inclusions -/

section Inclusions
variable {L R : ClassExpr} {c d : Clause} {p p' q : Progress}

theorem inclusion_relabel {label : String} (label' : String)
    (h : inclusion label L R p = (.ok c, q)) :
    inclusion label' L R p = (.ok { c with label := label' }, q) := by
  rw [inclusion] at h ⊢
  obtain ⟨body, _, hbody, h⟩ := bind_eq_ok h
  obtain ⟨head, _, hhead, h⟩ := bind_eq_ok h
  obtain ⟨rfl, rfl⟩ := pure_eq_ok h
  rw [bind_of_ok hbody, bind_of_ok hhead]
  rfl

/-- An inclusion reads nothing. -/
theorem inclusion_reading {label : String} (h : inclusion label L R p = (.ok c, q)) :
    q.reading = p.reading := by
  have hexpressing : ∀ {act : Expressing Formula} {f : Formula} {p q : Progress},
      expressing act p = (.ok f, q) → q.reading = p.reading := fun h =>
    congrArg (fun e => e.2.reading) h.symm
  rw [inclusion] at h
  obtain ⟨body, _, hbody, h⟩ := bind_eq_ok h
  obtain ⟨head, _, hhead, h⟩ := bind_eq_ok h
  obtain ⟨_, rfl⟩ := pure_eq_ok h
  exact (hexpressing hhead).trans (hexpressing hbody)

/-- What is an inclusion's clause somewhere is its clause anywhere, renumbered. -/
theorem inclusion_anywhere (hg : Unmade g) (hL : L.AllTerms (Mentions g))
    (hR : R.AllTerms (Mentions g)) {label : String} (h : inclusion label L R p = (.ok c, q))
    (hp : p.reading = []) (label' : String) (p' : Progress) (hp' : p'.reading = []) :
    ∃ d q', inclusion label' L R p' = (.ok d, q') ∧ Supersedes d c := by
  have hparallel : ∀ m, Parallel (Progress.Ahead (· + m)) (Clause.rename (shift m))
      (inclusion label L R) (inclusion label L R) := fun _ =>
    parallel_inclusion label (hL.mono fun _ => hg.rename_eq) (hR.mono fun _ => hg.rename_eq)
  have hfirst : ∀ p : Progress, p.reading = [] →
      Progress.Ahead (· + p.context.nextVariable) {} p := fun _ hp =>
        ⟨rfl, hp, ahead_add (Nat.zero_add _).symm⟩
  obtain ⟨hresult, _⟩ := hparallel _ _ _ (hfirst p hp)
  obtain ⟨hresult', _⟩ := hparallel _ _ _ (hfirst p' hp')
  -- the clause compiled first, from which both come
  cases hown : (inclusion label L R {}).1 with
  | error error =>
    rw [hown, h] at hresult
    cases hresult
  | ok own =>
    rw [hown, h] at hresult
    rw [hown] at hresult'
    obtain rfl : c = own.rename _ := Except.ok.inj hresult
    have hrenamed := inclusion_relabel label' (Prod.ext hresult' rfl)
    refine ⟨_, _, hrenamed, fun hproper => ?_, ?_⟩
    · exact own.isProper_rename.trans (own.isProper_rename.symm.trans hproper)
    · exact (covered_rename _ own (own.rename _) rfl rfl).2.trans
        (covered_rename _ own { own.rename _ with label := label' } rfl rfl).1

/-- If both inclusions have clauses, so they have together. -/
theorem both_inclusions (hg : Unmade g) (hL : L.AllTerms (Mentions g))
    (hR : R.AllTerms (Mentions g)) {label label' : String}
    (hto : inclusion label L R {} = (.ok c, q)) (hback : inclusion label' R L {} = (.ok d, q'))
    (l l' : String) : ∃ forward backward next last,
      inclusion l L R {} = (.ok forward, next) ∧ inclusion l' R L next = (.ok backward, last) ∧
        Supersedes forward c ∧ Supersedes backward d := by
  obtain ⟨forward, next, hforward, hfirst⟩ :=
    inclusion_anywhere hg hL hR hto rfl l {} rfl
  obtain ⟨backward, last, hbackward, hsecond⟩ :=
    inclusion_anywhere hg hR hL hback rfl l' next (inclusion_reading hforward)
  exact ⟨forward, backward, next, last, hforward, hbackward, hfirst, hsecond⟩

end Inclusions

/-! ### Equivalences -/

/-- The term stands for the class expression. -/
def Reads (g : Graph) (t : Term) (cls : ClassExpr) : Prop := readClass g t [] = (.ok cls, [])

/-- The items of the collection stand for the class expressions. -/
def ReadsMembers (g : Graph) (list : Term) (parts : List ClassExpr) : Prop :=
  readMembers g list [] = (.ok parts, [])

section Equivalences
variable {A B t : Term} {cls cls' L R : ClassExpr} {c d : Clause}

theorem Reads.allTerms (h : Reads g t cls) (ht : Mentions g t) : cls.AllTerms (Mentions g) :=
  readClass_mentions ht h

theorem Reads.unique (h : Reads g t cls) (h' : Reads g t cls') : cls = cls' :=
  Except.ok.inj (congrArg Prod.fst (h.symm.trans h'))

theorem reading_eq_ok_iff {α : Type} {act : Reading α} {a : α} {p p' : Progress}
    (hact : Agree [] act act) (hp : p.reading = []) :
    reading act p = (.ok a, p') ↔ act [] = (.ok a, []) ∧ p' = p := by
  have hreading : reading act p = ((act []).1, p) := by
    show ((act p.reading).1, ({ p with reading := (act p.reading).2 } : Progress)) = _
    rw [hp, hact.keeps, ← hp]
  rw [hreading, Prod.ext_iff, Prod.ext_iff]
  exact ⟨fun ⟨ha, hp⟩ => ⟨⟨ha, hact.keeps⟩, hp.symm⟩, fun ⟨⟨ha, _⟩, hp⟩ => ⟨ha, hp.symm⟩⟩

theorem reading_class_iff {p p' : Progress} (hp : p.reading = []) :
    reading (readClass g t) p = (.ok cls, p') ↔ Reads g t cls ∧ p' = p := by
  obtain ⟨nodes, hnodes⟩ := exists_sameDescriptions g
  exact reading_eq_ok_iff (agree_readClass hnodes t) hp

theorem reading_members_iff {parts : List ClassExpr} {p p' : Progress} (hp : p.reading = []) :
    reading (readMembers g t) p = (.ok parts, p') ↔ ReadsMembers g t parts ∧ p' = p := by
  obtain ⟨nodes, hnodes⟩ := exists_sameDescriptions g
  exact reading_eq_ok_iff (agree_readMembers hnodes t) hp

theorem clauses_subClassOf {cs : List Clause} {p p' : Progress} (hp : p.reading = []) :
    (Axiom.subClassOf A B).clauses g p = (.ok cs, p') ↔ ∃ L R c, Reads g A L ∧ Reads g B R ∧
      inclusion (Axiom.subClassOf A B).label L R p = (.ok c, p') ∧ cs = [c] := by
  constructor
  · intro h
    obtain ⟨L, _, hL, h⟩ := bind_eq_ok h
    obtain ⟨R, _, hR, h⟩ := bind_eq_ok h
    obtain ⟨c, _, hc, h⟩ := bind_eq_ok h
    obtain ⟨rfl, rfl⟩ := pure_eq_ok h
    obtain ⟨hleft, rfl⟩ := (reading_class_iff hp).mp hL
    obtain ⟨hright, rfl⟩ := (reading_class_iff hp).mp hR
    exact ⟨L, R, c, hleft, hright, hc, rfl⟩
  · rintro ⟨L, R, c, hL, hR, hc, rfl⟩
    refine (bind_of_ok ((reading_class_iff hp).mpr ⟨hL, rfl⟩)).trans ?_
    refine (bind_of_ok ((reading_class_iff hp).mpr ⟨hR, rfl⟩)).trans ?_
    exact bind_of_ok hc

theorem clauses_equivalentClass {cs : List Clause} {p p' : Progress} (hp : p.reading = []) :
    (Axiom.equivalentClass A B).clauses g p = (.ok cs, p') ↔
      ∃ L R forward backward next, Reads g A L ∧ Reads g B R ∧
        inclusion (Axiom.equivalentClass A B).label L R p = (.ok forward, next) ∧
        inclusion (Axiom.equivalentClass B A).label R L next = (.ok backward, p') ∧
        cs = [forward, backward] := by
  constructor
  · intro h
    obtain ⟨L, _, hL, h⟩ := bind_eq_ok h
    obtain ⟨R, _, hR, h⟩ := bind_eq_ok h
    obtain ⟨forward, next, hforward, h⟩ := bind_eq_ok h
    obtain ⟨backward, last, hbackward, h⟩ := bind_eq_ok h
    obtain ⟨rfl, rfl⟩ := pure_eq_ok h
    obtain ⟨hleft, rfl⟩ := (reading_class_iff hp).mp hL
    obtain ⟨hright, rfl⟩ := (reading_class_iff hp).mp hR
    exact ⟨L, R, forward, backward, next, hleft, hright, hforward, hbackward, rfl⟩
  · rintro ⟨L, R, forward, backward, next, hL, hR, hforward, hbackward, rfl⟩
    refine (bind_of_ok ((reading_class_iff hp).mpr ⟨hL, rfl⟩)).trans ?_
    refine (bind_of_ok ((reading_class_iff hp).mpr ⟨hR, rfl⟩)).trans ?_
    refine (bind_of_ok hforward).trans ?_
    exact bind_of_ok hbackward

theorem gives_subClassOf : (Axiom.subClassOf A B).Gives g c ↔ ∃ L R p, Reads g A L ∧ Reads g B R ∧
    inclusion (Axiom.subClassOf A B).label L R {} = (.ok c, p) := by
  constructor
  · rintro ⟨cs, p, h, hc⟩
    obtain ⟨L, R, d, hL, hR, hd, rfl⟩ := (clauses_subClassOf rfl).mp h
    rw [List.mem_singleton.mp hc]
    exact ⟨L, R, p, hL, hR, hd⟩
  · rintro ⟨L, R, p, hL, hR, hc⟩
    exact ⟨[c], p, (clauses_subClassOf rfl).mpr ⟨L, R, c, hL, hR, hc, rfl⟩,
      List.mem_singleton_self c⟩

theorem gives_equivalentClass : (Axiom.equivalentClass A B).Gives g c ↔
    ∃ L R forward backward next last, Reads g A L ∧ Reads g B R ∧
      inclusion (Axiom.equivalentClass A B).label L R {} = (.ok forward, next) ∧
      inclusion (Axiom.equivalentClass B A).label R L next = (.ok backward, last) ∧
      (c = forward ∨ c = backward) := by
  constructor
  · rintro ⟨cs, p, h, hc⟩
    obtain ⟨L, R, forward, backward, next, hL, hR, hforward, hbackward, rfl⟩ :=
      (clauses_equivalentClass rfl).mp h
    exact ⟨L, R, forward, backward, next, p, hL, hR, hforward, hbackward, by simpa using hc⟩
  · rintro ⟨L, R, forward, backward, next, last, hL, hR, hforward, hbackward, hc⟩
    exact ⟨[forward, backward], last, (clauses_equivalentClass rfl).mpr
      ⟨L, R, forward, backward, next, hL, hR, hforward, hbackward, rfl⟩, by simpa using hc⟩

theorem gives_intersection_of {S members : Term} {parts : List ClassExpr}
    {next last : Progress} (hparts : ReadsMembers g members parts)
    (hforward : inclusion (Axiom.intersection S members).label (.intersectionOf parts) (.named S)
      {} = (.ok c, next))
    (hbackward : inclusion ((Axiom.intersection S members).label ++ ":members") (.named S)
      (.intersectionOf parts) next = (.ok d, last)) : (Axiom.intersection S members).Gives g c := by
  refine ⟨[c, d], last, ?_, List.mem_cons_self ..⟩
  refine (bind_of_ok ((reading_members_iff rfl).mpr ⟨hparts, rfl⟩)).trans ?_
  refine (bind_of_ok hforward).trans ?_
  exact bind_of_ok hbackward

/-- Each clause of an equivalence is one of an inclusion. -/
theorem equivalentClass_superseded (hg : Unmade g) (hA : Mentions g A) (hB : Mentions g B)
    (h : (Axiom.equivalentClass A B).Gives g c) :
    (∃ d, (Axiom.subClassOf A B).Gives g d ∧ Supersedes d c) ∨
      ∃ d, (Axiom.subClassOf B A).Gives g d ∧ Supersedes d c := by
  obtain ⟨L, R, forward, backward, next, last, hL, hR, hforward, hbackward, hc⟩ :=
    gives_equivalentClass.mp h
  have hLterms := hL.allTerms hA
  have hRterms := hR.allTerms hB
  rcases hc with rfl | rfl
  · obtain ⟨d, _, hd, hsupersedes⟩ := inclusion_anywhere hg hLterms hRterms hforward rfl
      (Axiom.subClassOf A B).label {} rfl
    exact .inl ⟨d, gives_subClassOf.mpr ⟨L, R, _, hL, hR, hd⟩, hsupersedes⟩
  · obtain ⟨d, _, hd, hsupersedes⟩ := inclusion_anywhere hg hRterms hLterms hbackward
      (inclusion_reading hforward) (Axiom.subClassOf B A).label {} rfl
    exact .inr ⟨d, gives_subClassOf.mpr ⟨R, L, _, hR, hL, hd⟩, hsupersedes⟩

/-- If both inclusions have a clause, the equivalence has both. -/
theorem subClassOf_superseded (hg : Unmade g) (hA : Mentions g A) (hB : Mentions g B)
    (hto : (Axiom.subClassOf A B).Gives g c) (hback : (Axiom.subClassOf B A).Gives g d) :
    (∃ e, (Axiom.equivalentClass A B).Gives g e ∧ Supersedes e c) ∧
      ∃ e, (Axiom.equivalentClass A B).Gives g e ∧ Supersedes e d := by
  obtain ⟨L, R, _, hL, hR, hc⟩ := gives_subClassOf.mp hto
  obtain ⟨R', L', _, hR', hL', hd⟩ := gives_subClassOf.mp hback
  cases hL.unique hL'
  cases hR.unique hR'
  obtain ⟨forward, backward, next, last, hforward, hbackward, hfirst, hsecond⟩ :=
    both_inclusions hg (hL.allTerms hA) (hR.allTerms hB) hc hd
      (Axiom.equivalentClass A B).label (Axiom.equivalentClass B A).label
  have hgives : ∀ e, e = forward ∨ e = backward → (Axiom.equivalentClass A B).Gives g e :=
    fun e he => gives_equivalentClass.mpr
      ⟨L, R, forward, backward, next, last, hL, hR, hforward, hbackward, he⟩
  exact ⟨⟨forward, hgives _ (.inl rfl), hfirst⟩, ⟨backward, hgives _ (.inr rfl), hsecond⟩⟩

/-- `g'` has the two inclusions in place of the equivalence of `A` and `B`. -/
structure Halved (g : Graph) (A B : Term) (g' : Graph) : Prop where
  stated : ⟨A, .iri Vocabulary.Owl.equivalentClass, B⟩ ∈ g.toList
  triples : ∀ t, t ∈ g'.toList ↔
    (t ∈ g.toList ∧ t ≠ ⟨A, .iri Vocabulary.Owl.equivalentClass, B⟩) ∨
      t = ⟨A, .iri Vocabulary.Rdfs.subClassOf, B⟩ ∨ t = ⟨B, .iri Vocabulary.Rdfs.subClassOf, A⟩

namespace Halved

theorem of_toList (rest : List Triple)
    (hg : g.toList = ⟨A, .iri Vocabulary.Owl.equivalentClass, B⟩ :: rest)
    (hg' : g'.toList = ⟨A, .iri Vocabulary.Rdfs.subClassOf, B⟩ ::
      ⟨B, .iri Vocabulary.Rdfs.subClassOf, A⟩ :: rest) : Halved g A B g' := by
  have hnot := (List.nodup_cons.mp (hg ▸ g.nodup)).1
  refine ⟨hg ▸ List.mem_cons_self .., fun t => ?_⟩
  rw [hg, hg', List.mem_cons, List.mem_cons, List.mem_cons]
  constructor
  · rintro (hto | hback | ht)
    · exact .inr (.inl hto)
    · exact .inr (.inr hback)
    · exact .inl ⟨.inr ht, fun heq => hnot (heq ▸ ht)⟩
  · rintro (⟨heq | ht, hne⟩ | hto | hback)
    · exact absurd heq hne
    · exact .inr (.inr ht)
    · exact .inl hto
    · exact .inr (.inl hback)

theorem describing (h : Halved g A B g') {t : Triple} (ht : Describes t.predicate) :
    t ∈ g.toList ↔ t ∈ g'.toList := by
  have hne : ∀ s p o, ¬ Describes p → t ≠ ⟨s, p, o⟩ := by
    rintro s p o hp rfl
    exact hp ht
  rw [h.triples]
  simp [hne _ _ _ (show ¬ Describes (.iri Vocabulary.Owl.equivalentClass) by decide),
    hne _ _ _ (show ¬ Describes (.iri Vocabulary.Rdfs.subClassOf) by decide)]

theorem unmade (h : Halved g A B g') (hg : Unmade g) : Unmade g' := by
  intro t ht n hmade
  have hne : .var (madeVariable (n + 1)) ≠ A ∧ .var (madeVariable (n + 1)) ≠ B := by
    simpa [Triple.terms] using hg _ h.stated n
  rcases (h.triples t).mp ht with ⟨ht, _⟩ | rfl | rfl
  · exact hg t ht n hmade
  · simp [Triple.terms, hne] at hmade
  · simp [Triple.terms, hne] at hmade

theorem gives_eq (h : Halved g A B g') (a : Axiom) (c : Clause) : a.Gives g' c ↔ a.Gives g c := by
  obtain ⟨nodes, hnodes⟩ := sameDescriptions_of_graphs fun _ => h.describing
  rw [Axiom.Gives, Axiom.Gives, hnodes.clauses_eq]

/-- The axioms of both graphs are the same, but for the equivalence and the inclusions. -/
theorem statedIn (h : Halved g A B g') (a : Axiom) : a.StatedIn g' ↔
    (a.StatedIn g ∧ a ≠ .equivalentClass A B) ∨ a = .subClassOf A B ∨ a = .subClassOf B A := by
  have hne : Vocabulary.Rdfs.subClassOf ≠ Vocabulary.Owl.equivalentClass := by decide
  cases a with
  | subClassOf sub sup => simp [Axiom.StatedIn, h.triples, hne]
  | equivalentClass left right => simp [Axiom.StatedIn, h.triples, hne.symm]
  | _ =>
    rw [← statedIn_iff (fun _ => h.describing) (by simp) (by simp)]
    simp

end Halved

/-- The clause of `sup(x) :- sub(x)`, compiled first. -/
def IsInclusion (sub sup : ClassExpr) (c : Clause) : Prop :=
  ∃ label p, inclusion label sub sup {} = (.ok c, p)

/-- **An equivalence and its two inclusions.** With the inclusions in place of the equivalence no
rule is lost, and none is new if both of them have a clause or none has. The rules of a named
intersection are kept if both of its inclusions have a clause. -/
theorem equivalence_halves (hg : Unmade g) (hhalved : Halved g A B g') :
    Covered (compile g).rules (compile g').rules ∧
    (((∃ c, (Axiom.subClassOf A B).Gives g c) ↔ ∃ c, (Axiom.subClassOf B A).Gives g c) →
      Covered (compile g').rules (compile g).rules) ∧
    ∀ S members parts c, ⟨S, .iri Vocabulary.Owl.intersectionOf, members⟩ ∈ g.toList →
      S.isBlank = false → ReadsMembers g members parts →
      IsInclusion (.intersectionOf parts) (.named S) c → c.isProper = true →
      (∃ d, IsInclusion (.named S) (.intersectionOf parts) d) →
      Covered c.normalize.rules (compile g).rules := by
  obtain ⟨hA, hB⟩ := mentions_of_mem hhalved.stated
  have hequivalence : .equivalentClass A B ∈ Axiom.all g := mem_all.mpr hhalved.stated
  refine ⟨compile_covered hg (hhalved.unmade hg) fun a ha c hc => ?_, fun hboth =>
    compile_covered (hhalved.unmade hg) hg fun a ha c hc => ?_, ?_⟩
  · by_cases heq : a = .equivalentClass A B
    · subst heq
      rcases equivalentClass_superseded hg hA hB hc with ⟨d, hd, hsupersedes⟩ | ⟨d, hd, hsupersedes⟩
      · have hto := (hhalved.statedIn (.subClassOf A B)).mpr (.inr (.inl rfl))
        exact ⟨_, mem_all.mpr hto, d, (hhalved.gives_eq _ d).mpr hd, hsupersedes⟩
      · have hback := (hhalved.statedIn (.subClassOf B A)).mpr (.inr (.inr rfl))
        exact ⟨_, mem_all.mpr hback, d, (hhalved.gives_eq _ d).mpr hd, hsupersedes⟩
    · have hstated := (hhalved.statedIn a).mpr (.inl ⟨mem_all.mp ha, heq⟩)
      exact ⟨a, mem_all.mpr hstated, c, (hhalved.gives_eq a c).mpr hc, .refl c⟩
  · rw [hhalved.gives_eq] at hc
    rcases (hhalved.statedIn a).mp (mem_all.mp ha) with ⟨hstated, _⟩ | rfl | rfl
    · exact ⟨a, mem_all.mpr hstated, c, hc, .refl c⟩
    · obtain ⟨d, hd⟩ := hboth.mp ⟨c, hc⟩
      obtain ⟨⟨e, he, hsupersedes⟩, _⟩ := subClassOf_superseded hg hA hB hc hd
      exact ⟨_, hequivalence, e, he, hsupersedes⟩
    · obtain ⟨d, hd⟩ := hboth.mpr ⟨c, hc⟩
      obtain ⟨_, e, he, hsupersedes⟩ := subClassOf_superseded hg hA hB hd hc
      exact ⟨_, hequivalence, e, he, hsupersedes⟩
  · rintro S members parts c hstated hblank hparts ⟨_, _, hto⟩ hproper ⟨d, _, _, hback⟩
    have hnamed : (ClassExpr.named S).AllTerms (Mentions g) := (mentions_of_mem hstated).1
    have hwhole := ClassExpr.allTerms_intersectionOf.mpr (readMembers_mentions hparts)
    obtain ⟨forward, backward, _, _, hforward, hbackward, hsupersedes, _⟩ :=
      both_inclusions hg hwhole hnamed hto hback (Axiom.intersection S members).label
        ((Axiom.intersection S members).label ++ ":members")
    have hgives := gives_intersection_of hparts hforward hbackward
    have hmem : .intersection S members ∈ Axiom.all g := mem_all.mpr ⟨hstated, hblank⟩
    exact hsupersedes.covered.trans
      (covered_of_gives hg hmem hgives (hsupersedes.isProper hproper))

end Equivalences

/-- `A` is what has `v` as a `p`, and `S` is both `A` and `C`. -/
def valued : Graph := .ofList
  [⟨.iri "A", .iri Vocabulary.Owl.equivalentClass, .blank "r"⟩,
   ⟨.blank "r", .iri Vocabulary.Owl.onProperty, .iri "p"⟩,
   ⟨.blank "r", .iri Vocabulary.Owl.hasValue, .iri "v"⟩,
   ⟨.iri "S", .iri Vocabulary.Owl.intersectionOf, .blank "l"⟩,
   ⟨.blank "l", .iri Vocabulary.Rdf.first, .iri "A"⟩,
   ⟨.blank "l", .iri Vocabulary.Rdf.rest, .blank "m"⟩,
   ⟨.blank "m", .iri Vocabulary.Rdf.first, .iri "C"⟩,
   ⟨.blank "m", .iri Vocabulary.Rdf.rest, .iri Vocabulary.Rdf.nil⟩]

def valuedHalves : Graph := .ofList
  (⟨.iri "A", .iri Vocabulary.Rdfs.subClassOf, .blank "r"⟩ ::
    ⟨.blank "r", .iri Vocabulary.Rdfs.subClassOf, .iri "A"⟩ :: valued.toList.tail)

/-- Both directions, and the three rules of the intersection. -/
theorem equivalence_halves_of_valued : (compile valued).rules.length = 5 ∧
    Covered (compile valued).rules (compile valuedHalves).rules ∧
    Covered (compile valuedHalves).rules (compile valued).rules ∧
    ∃ rule ∈ (compile valued).rules, Variant
      { label := "", body := [⟨x, .iri Vocabulary.Rdf.type, .iri "A"⟩,
          ⟨x, .iri Vocabulary.Rdf.type, .iri "C"⟩]
        head := [⟨x, .iri Vocabulary.Rdf.type, .iri "S"⟩] } rule := by
  have hfree : ∀ t ∈ valued.toList, t.hasVariables = false := by decide +kernel
  have hhalved : Halved valued (.iri "A") (.blank "r") valuedHalves :=
    .of_toList valued.toList.tail (by decide +kernel) (by decide +kernel)
  obtain ⟨hto, hfrom, hintersection⟩ := equivalence_halves (unmade_of_variableFree hfree) hhalved
  have hboth : (∃ c, (Axiom.subClassOf (.iri "A") (.blank "r")).Gives valued c) ∧
      ∃ c, (Axiom.subClassOf (.blank "r") (.iri "A")).Gives valued c :=
    ⟨⟨_, _, _, rfl, List.mem_singleton_self _⟩, ⟨_, _, _, rfl, List.mem_singleton_self _⟩⟩
  have hkept := hintersection (.iri "S") (.blank "l") [.named (.iri "A"), .named (.iri "C")] _
    (by decide +kernel) rfl rfl ⟨"", _, rfl⟩ rfl ⟨_, "", _, rfl⟩
  exact ⟨by decide +kernel, hto, hfrom (iff_of_true hboth.1 hboth.2),
    hkept _ (List.mem_singleton_self _)⟩

/-- `A` is what has a `C` as a `p`. -/
def someC : Graph := .ofList
  [⟨.iri "A", .iri Vocabulary.Owl.equivalentClass, .blank "r"⟩,
   ⟨.blank "r", .iri Vocabulary.Owl.onProperty, .iri "p"⟩,
   ⟨.blank "r", .iri Vocabulary.Owl.someValuesFrom, .iri "C"⟩]

def someCHalves : Graph := .ofList
  (⟨.iri "A", .iri Vocabulary.Rdfs.subClassOf, .blank "r"⟩ ::
    ⟨.blank "r", .iri Vocabulary.Rdfs.subClassOf, .iri "A"⟩ :: someC.toList.tail)

def someCRule : HornRule where
  label := "subClassOf(_:r, <A>)"
  body := [⟨x, .iri "p", .var (madeVariable 1)⟩,
    ⟨.var (madeVariable 1), .iri Vocabulary.Rdf.type, .iri "C"⟩]
  head := [⟨x, .iri Vocabulary.Rdf.type, .iri "A"⟩]

/-- A class of some values has no head, so the equivalence has no rule, and the inclusion in `A`
is lost with the other one. -/
theorem half_lost : Unmade someC ∧ Halved someC (.iri "A") (.blank "r") someCHalves ∧
    (compile someCHalves).rules = [someCRule] ∧ (compile someC).rules = [] ∧
    ¬ Covered (compile someCHalves).rules (compile someC).rules := by
  have hfree : ∀ t ∈ someC.toList, t.hasVariables = false := by decide +kernel
  have hhalves : (compile someCHalves).rules = [someCRule] := by decide +kernel
  have hnone : (compile someC).rules = [] := by decide +kernel
  refine ⟨unmade_of_variableFree hfree, .of_toList someC.toList.tail (by decide +kernel)
    (by decide +kernel), hhalves, hnone, fun h => ?_⟩
  obtain ⟨rule, hrule, _⟩ := h someCRule (hhalves ▸ List.mem_singleton_self _)
  rw [hnone] at hrule
  cases hrule

end HornReasoner.Ontology
