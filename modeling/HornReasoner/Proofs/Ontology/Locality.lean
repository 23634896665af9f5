import HornReasoner.Proofs.Ontology.Diagnostics
import Mathlib.Data.Set.Finite.List

/-! Axioms among others.

The walk passes nothing on from one axiom to the next but the number of the last made variable.
So what it finds is what it finds of each axiom alone, put together in their order
(`Walk.gained_foldl_add`); and from whatever number an axiom is compiled, its clauses are the
same but for the variables made for them (`alone_renumbered`). Where a variable of the graph has the
name of a made one, the number decides whether the two are one (`failure_interferes`). -/
namespace HornReasoner.Ontology

open TripleSource

variable {g : Graph} {a : Axiom}

/-! ### One step of the walk -/

namespace Walk
variable {w w' next last : Walk} {cs cs' : List Clause} {ds ds' : List Diagnostic}

/-- The second walk is the first one with some clauses and diagnostics more. -/
structure Gained (w next : Walk) (cs : List Clause) (ds : List Diagnostic) : Prop where
  clauses : next.clauses = w.clauses ++ cs
  diagnostics : next.progress.diagnostics = w.progress.diagnostics ++ ds

theorem Gained.trans (h : w.Gained next cs ds) (h' : next.Gained last cs' ds') :
    w.Gained last (cs ++ cs') (ds ++ ds') where
  clauses := by rw [h'.clauses, h.clauses, List.append_assoc]
  diagnostics := by rw [h'.diagnostics, h.diagnostics, List.append_assoc]

theorem gained_extend {p : Progress} (hp : p.diagnostics = w.progress.diagnostics) :
    w.Gained (({ w with progress := p } : Walk).extend cs ds) cs ds :=
  ⟨rfl, congrArg (· ++ ds) hp⟩

/-- Walks that differ in what they found and in the next number gain the same of an axiom, but for
the numbers of its made variables. -/
theorem add_parallel {h : Nat → Nat} (hterms : ∀ u, Mentions g u → u.rename (renumber h) = u)
    (ha : a.AllTerms (Mentions g)) (hw : Progress.Ahead h w.progress w'.progress) :
    Progress.Ahead h (w.add g a).progress (w'.add g a).progress ∧ ∃ cs ds,
      w.Gained (w.add g a) cs ds ∧
        w'.Gained (w'.add g a) (cs.map (Clause.rename (renumber h))) ds := by
  obtain ⟨nodes, hnodes⟩ := exists_sameDescriptions g
  obtain ⟨hresult, hnext⟩ := clauses_parallel hnodes hterms ha _ _ hw
  rw [add_eq_extend, add_eq_extend, hresult, keptOf_map_rename, Axiom.remarks_map_rename]
  exact ⟨⟨hnext.reading, hnext.reading', hnext.context⟩, _, _, gained_extend (clauses_leaves g a _),
    gained_extend (clauses_leaves g a _)⟩

end Walk

/-! ### One axiom -/

/-- A walk that has found nothing yet, after `n` variables were made. -/
def Walk.startingAt (n : Nat) : Walk := { progress := { context := { nextVariable := n } } }

namespace Axiom

/-- The walk over an axiom alone, after `n` variables were made. -/
def alone (g : Graph) (n : Nat) (a : Axiom) : Walk := (Walk.startingAt n).add g a

/-- Why an axiom has no clauses, if it has none. -/
def failure? (g : Graph) (a : Axiom) : Option String :=
  match a with
  | inexpressible predicate _ => some (Vocabulary.compact predicate ++ " has no Horn translation")
  | a =>
    match (a.clauses g {}).1 with
    | .ok _ => none
    | .error e => some e.message

end Axiom

/-- No made variable with a greater number stands in the graph. -/
def Beyond (g : Graph) (n : Nat) : Prop :=
  ∀ t ∈ g.toList, ∀ k, .var (madeVariable (k + 1)) ∈ t.terms → k < n

theorem exists_beyond (g : Graph) : ∃ n, Beyond g n := by
  have hfinite : {k | Term.var (madeVariable (k + 1)) ∈ g.toList.flatMap Triple.terms}.Finite :=
    (List.finite_toSet (g.toList.flatMap Triple.terms)).preimage
      (Function.Injective.injOn fun _ _ heq => made_injective (Term.var.inj heq))
  obtain ⟨n, hn⟩ := hfinite.bddAbove
  exact ⟨n + 1, fun t ht k hk => Nat.lt_succ_of_le (hn (List.mem_flatMap.mpr ⟨t, ht, hk⟩))⟩

/-- The variables made after the `n`th one, as if they were made after the `m`th one. -/
noncomputable def renumberFrom (n m : Nat) : Variable → Variable :=
  renumber fun k => if k < n then k else k - n + m

theorem beyond_zero_iff : Beyond g 0 ↔ Unmade g :=
  forall₂_congr fun _ _ => forall_congr' fun k => ⟨fun h hk => absurd (h hk) (Nat.not_lt_zero k),
    fun h hk => absurd hk h⟩

/-- From whatever number on, an axiom alone has the same clauses, renumbered, and the same
diagnostics. -/
theorem alone_renumbered {n : Nat} (hn : Beyond g n) (ha : a.AllTerms (Mentions g)) (m : Nat) :
    (a.alone g m).clauses = (a.alone g n).clauses.map (Clause.rename (renumberFrom n m)) ∧
      (a.alone g m).progress.diagnostics = (a.alone g n).progress.diagnostics := by
  have hterms : ∀ u, Mentions g u → u.rename (renumberFrom n m) = u :=
    fun u hu => rename_eq_of_mentions (fun t ht k hk => if_pos (hn t ht k hk)) hu
  have hnumber : ∀ k, (if n + k < n then n + k else n + k - n + m) = m + k := by
    intro k
    split <;> omega
  have hahead : Progress.Ahead (fun k => if k < n then k else k - n + m)
      (Walk.startingAt n).progress (Walk.startingAt m).progress := ⟨rfl, rfl, hnumber⟩
  obtain ⟨_, cs, ds, hgained, hgained'⟩ := Walk.add_parallel hterms ha hahead
  have hclauses : (a.alone g n).clauses = cs := hgained.clauses
  have hclauses' : (a.alone g m).clauses = cs.map (Clause.rename (renumberFrom n m)) :=
    hgained'.clauses
  have hdiagnostics : (a.alone g n).progress.diagnostics = ds := hgained.diagnostics
  have hdiagnostics' : (a.alone g m).progress.diagnostics = ds := hgained'.diagnostics
  rw [hclauses, hclauses', hdiagnostics, hdiagnostics']
  exact ⟨rfl, rfl⟩

/-- An axiom alone gives what is kept of its result, and what is said of it. -/
theorem alone_eq (g : Graph) (n : Nat) (a : Axiom) :
    (a.alone g n).clauses = keptOf (a.clauses g (Walk.startingAt n).progress).1 ∧
      (a.alone g n).progress.diagnostics =
        a.remarks (a.clauses g (Walk.startingAt n).progress).1 := by
  have hleaves : (a.clauses g (Walk.startingAt n).progress).2.diagnostics = [] :=
    clauses_leaves g a _
  rw [Axiom.alone, Walk.add_eq_extend]
  exact ⟨rfl, congrArg (· ++ _) hleaves⟩

theorem Axiom.remarks_of_failure {message : String} (h : a.failure? g = some message) :
    keptOf (a.clauses g {}).1 = [] ∧ a.remarks (a.clauses g {}).1 = [⟨a.label, message⟩] := by
  cases a with
  | inexpressible predicate cls =>
    cases h
    exact ⟨rfl, rfl⟩
  | _ =>
    unfold failure? at h
    dsimp only at h
    split at h
    · cases h
    · rename_i hresult
      cases h
      rw [hresult]
      exact ⟨rfl, rfl⟩

/-- An axiom that fails has no clause and one diagnostic, from whatever number on. -/
theorem alone_of_failure {message : String} (ha : a.AllTerms (Mentions g))
    (h : a.failure? g = some message) (m : Nat) :
    (a.alone g m).clauses = [] ∧ (a.alone g m).progress.diagnostics = [⟨a.label, message⟩] := by
  have hfirst : (a.alone g 0).clauses = [] ∧
      (a.alone g 0).progress.diagnostics = [⟨a.label, message⟩] := by
    obtain ⟨hkept, hremarks⟩ := Axiom.remarks_of_failure h
    obtain ⟨hclauses, hdiagnostics⟩ := alone_eq g 0 a
    exact ⟨hclauses.trans hkept, hdiagnostics.trans hremarks⟩
  obtain ⟨n, hn⟩ := exists_beyond g
  obtain ⟨hclauses, hdiagnostics⟩ := alone_renumbered hn ha 0
  obtain ⟨hclauses', hdiagnostics'⟩ := alone_renumbered hn ha m
  rw [hfirst.1] at hclauses
  rw [hclauses', hdiagnostics', ← hdiagnostics, List.map_eq_nil_iff.mp hclauses.symm]
  exact ⟨rfl, hfirst.2⟩

/-! ### All axioms -/

/-- The axioms each alone, from the number at which the one before it stopped. -/
def alones (g : Graph) : Nat → List Axiom → List Walk
  | _, [] => []
  | n, a :: rest => a.alone g n :: alones g (a.alone g n).progress.context.nextVariable rest

theorem exists_alone (g : Graph) (n : Nat) (before : List Axiom) (a : Axiom) (after : List Axiom) :
    ∃ m first last, alones g n (before ++ a :: after) = first ++ a.alone g m :: last := by
  induction before generalizing n with
  | nil => exact ⟨n, [], _, rfl⟩
  | cons b rest ih =>
    obtain ⟨m, first, last, halones⟩ := ih (b.alone g n).progress.context.nextVariable
    exact ⟨m, b.alone g n :: first, last, congrArg (b.alone g n :: ·) halones⟩

namespace Walk
variable {w : Walk}

/-- An axiom gives the walk what it gives alone. -/
theorem gained_add (ha : a.AllTerms (Mentions g)) (hw : w.progress.reading = []) :
    ∃ own, own = a.alone g w.progress.context.nextVariable ∧
      w.Gained (w.add g a) own.clauses own.progress.diagnostics ∧
      (w.add g a).progress.reading = [] ∧
      (w.add g a).progress.context.nextVariable = own.progress.context.nextVariable := by
  have hterms : ∀ u, Mentions g u → u.rename (renumber id) = u := by
    intro u _
    rw [renumber_id, Term.rename_id]
  have hahead : Progress.Ahead id (startingAt w.progress.context.nextVariable).progress
      w.progress := ⟨rfl, hw, fun _ => rfl⟩
  obtain ⟨hafter, cs, ds, hown, hgained⟩ := add_parallel hterms ha hahead
  have hsame : cs.map (Clause.rename (renumber id)) = cs := by
    rw [renumber_id]
    exact (List.map_congr_left fun c _ => c.rename_id).trans (List.map_id cs)
  have hclauses : (a.alone g w.progress.context.nextVariable).clauses = cs := hown.clauses
  have hdiagnostics : (a.alone g w.progress.context.nextVariable).progress.diagnostics = ds :=
    hown.diagnostics
  refine ⟨_, rfl, ?_, hafter.reading', (hafter.context 0).symm⟩
  rw [hclauses, hdiagnostics]
  rwa [hsame] at hgained

/-- **A walk finds what each of its axioms gives alone**, in their order. -/
theorem gained_foldl_add {axioms : List Axiom}
    (haxioms : ∀ a ∈ axioms, a.AllTerms (Mentions g)) (hw : w.progress.reading = []) :
    w.Gained (axioms.foldl (add g) w)
      ((alones g w.progress.context.nextVariable axioms).flatMap Walk.clauses)
      ((alones g w.progress.context.nextVariable axioms).flatMap fun own =>
        own.progress.diagnostics) := by
  induction axioms generalizing w with
  | nil => exact ⟨(List.append_nil _).symm, (List.append_nil _).symm⟩
  | cons a rest ih =>
    obtain ⟨ha, hrest⟩ := List.forall_mem_cons.mp haxioms
    obtain ⟨own, hown, hgained, hreading, hnext⟩ := gained_add ha hw
    have hothers := ih hrest hreading
    rw [hnext] at hothers
    rw [List.foldl_cons, alones, List.flatMap_cons, List.flatMap_cons, ← hown]
    exact hgained.trans hothers

end Walk

/-- Any axioms of a graph, walked over from the start, give what each of them gives alone. -/
theorem walk_alones {axioms : List Axiom} (haxioms : axioms ⊆ Axiom.all g) :
    (axioms.foldl (Walk.add g) {}).clauses = (alones g 0 axioms).flatMap Walk.clauses ∧
      (axioms.foldl (Walk.add g) {}).progress.diagnostics =
        (alones g 0 axioms).flatMap fun own => own.progress.diagnostics := by
  have hgained := Walk.gained_foldl_add (w := {})
    (fun a ha => Axiom.mentions_all a (haxioms ha)) rfl
  exact ⟨hgained.clauses, hgained.diagnostics⟩

theorem compile_alones (g : Graph) :
    (compile g).clauses = (alones g 0 (Axiom.all g)).flatMap Walk.clauses :=
  (compile_clauses g).trans (walk_alones (List.Subset.refl _)).1

/-- The clauses of the axioms each alone in a new context, but for the names of made variables, are
the parts of those of the ontology, in order. -/
def CompiledApart (g : Graph) : Prop :=
  ∃ parts : List (List Clause), (compile g).clauses = parts.flatten ∧
    List.Forall₂ (fun a part => ∃ f : Variable → Variable, Function.Injective f ∧
      (∀ v, (∀ n, v ≠ madeVariable (n + 1)) → f v = v) ∧
        part = (a.alone g 0).clauses.map (Clause.rename f)) (Axiom.all g) parts

theorem compiledApart_of_unmade (hg : Unmade g) : CompiledApart g := by
  refine ⟨(alones g 0 (Axiom.all g)).map Walk.clauses, compile_alones g, ?_⟩
  have hall : ∀ a ∈ Axiom.all g, a.AllTerms (Mentions g) := Axiom.mentions_all
  generalize Axiom.all g = axioms at hall
  suffices ∀ n, List.Forall₂ _ axioms ((alones g n axioms).map Walk.clauses) from this 0
  induction axioms with
  | nil => exact fun _ => .nil
  | cons a rest ih =>
    intro n
    obtain ⟨ha, hrest⟩ := List.forall_mem_cons.mp hall
    exact .cons ⟨shift n, shift_injective n, fun _ => renumber_of_not_made,
      (alone_renumbered (beyond_zero_iff.mpr hg) ha n).1⟩ (ih hrest _)

/-- **Axioms are compiled apart.** The clauses of an ontology, or of any of its axioms without the
others, are what each axiom gives alone, one after the other, and so are the diagnostics of the
axioms. What an axiom gives alone depends on the number it starts from only in the numbers of the
variables made for it: from wherever it starts, its clauses are those it has beyond all numbers
that stand in the graph, renumbered, and in a graph where none stands those of a new context. An
axiom that fails has no clause and one diagnostic. -/
theorem compile_apart (g : Graph) :
    ((compile g).clauses = (alones g 0 (Axiom.all g)).flatMap Walk.clauses ∧
      (compile g).diagnostics =
        ((alones g 0 (Axiom.all g)).flatMap fun own => own.progress.diagnostics) ++
          (compile g).clauses.flatMap fun c => c.normalize.dropped) ∧
    (∀ axioms ⊆ Axiom.all g,
      (axioms.foldl (Walk.add g) {}).clauses = (alones g 0 axioms).flatMap Walk.clauses ∧
        (axioms.foldl (Walk.add g) {}).progress.diagnostics =
          (alones g 0 axioms).flatMap fun own => own.progress.diagnostics) ∧
    (Unmade g → CompiledApart g) ∧
    (∃ n, Beyond g n) ∧
    ∀ a ∈ Axiom.all g,
      (∀ n, Beyond g n → ∀ m,
        (a.alone g m).clauses = (a.alone g n).clauses.map (Clause.rename (renumberFrom n m)) ∧
          (a.alone g m).progress.diagnostics = (a.alone g n).progress.diagnostics) ∧
      (Unmade g → ∀ m,
        (a.alone g m).clauses = (a.alone g 0).clauses.map (Clause.rename (shift m))) ∧
      ∀ message, a.failure? g = some message → ∀ m,
        (a.alone g m).clauses = [] ∧
          (a.alone g m).progress.diagnostics = [⟨a.label, message⟩] := by
  refine ⟨⟨compile_alones g, ?_⟩, fun axioms haxioms => walk_alones haxioms,
    compiledApart_of_unmade, exists_beyond g, fun a ha => ?_⟩
  · rw [compile_diagnostics, (walk_alones (List.Subset.refl _)).2]
  · have hterms := Axiom.mentions_all a ha
    refine ⟨fun n hn m => alone_renumbered hn hterms m, fun hg m => ?_, fun message h m => ?_⟩
    · exact (alone_renumbered (beyond_zero_iff.mpr hg) hterms m).1
    · exact alone_of_failure hterms h m

/-- What has a `p` that is a `C` is an `A`, and what has one that is an `E` is a `B`; between them
something that has a `q` and is nothing, which has no clause. -/
def mixed : Graph := .ofList
  [⟨.blank "r", .iri Vocabulary.Rdfs.subClassOf, .iri "A"⟩,
   ⟨.blank "r", .iri Vocabulary.Owl.onProperty, .iri "p"⟩,
   ⟨.blank "r", .iri Vocabulary.Owl.someValuesFrom, .iri "C"⟩,
   ⟨.blank "s", .iri Vocabulary.Rdfs.subClassOf, .iri Vocabulary.Owl.nothing⟩,
   ⟨.blank "s", .iri Vocabulary.Owl.onProperty, .iri "q"⟩,
   ⟨.blank "s", .iri Vocabulary.Owl.someValuesFrom, .iri "D"⟩,
   ⟨.blank "t", .iri Vocabulary.Rdfs.subClassOf, .iri "B"⟩,
   ⟨.blank "t", .iri Vocabulary.Owl.onProperty, .iri "p"⟩,
   ⟨.blank "t", .iri Vocabulary.Owl.someValuesFrom, .iri "E"⟩]

/-- The axiom in between takes a number, and the clauses of the others are their own. -/
theorem compile_apart_of_mixed : (compile mixed).clauses.length = 2 ∧ CompiledApart mixed ∧
    (compile mixed).clauses =
      ((Axiom.subClassOf (.blank "r") (.iri "A")).alone mixed 0).clauses ++
        ((Axiom.subClassOf (.blank "t") (.iri "B")).alone mixed 0).clauses.map
          (Clause.rename (shift 2)) ∧
    (compile mixed).diagnostics =
      [⟨"subClassOf(_:s, owl:Nothing)", "Unsupported construct: owl:Nothing"⟩] := by
  have hfree : ∀ t ∈ mixed.toList, t.hasVariables = false := by decide +kernel
  have hall : Axiom.all mixed = [.subClassOf (.blank "r") (.iri "A"),
      .subClassOf (.blank "s") (.iri Vocabulary.Owl.nothing),
      .subClassOf (.blank "t") (.iri "B")] := by decide +kernel
  have hfailure : (Axiom.subClassOf (.blank "s") (.iri Vocabulary.Owl.nothing)).failure? mixed =
      some "Unsupported construct: owl:Nothing" := by decide +kernel
  obtain ⟨⟨hclauses, _⟩, _, hapart, _, haxioms⟩ := compile_apart mixed
  rw [hall] at hclauses haxioms
  have hfails := (haxioms _ (by simp)).2.2 _ hfailure
  have hlast := (haxioms (.subClassOf (.blank "t") (.iri "B")) (by simp)).2.1
    (unmade_of_variableFree hfree) 2
  -- the first axiom and the one that fails take a number each
  have htogether : (compile mixed).clauses =
      ((Axiom.subClassOf (.blank "r") (.iri "A")).alone mixed 0).clauses ++
        ((Axiom.subClassOf (.blank "t") (.iri "B")).alone mixed 0).clauses.map
          (Clause.rename (shift 2)) := by
    rw [hclauses, ← hlast]
    show _ ++ (((Axiom.subClassOf (.blank "s") (.iri Vocabulary.Owl.nothing)).alone mixed
      1).clauses ++ _) = _
    rw [(hfails 1).1]
    exact congrArg _ (List.append_nil _)
  refine ⟨by decide +kernel, hapart (unmade_of_variableFree hfree), htogether, ?_⟩
  decide +kernel

/-- What has a `p` with the `q` that `?v2` stands for is a `B`; before it, something that has a `p`
and is nothing. -/
def interfering : Graph := .ofList
  [⟨.blank "s", .iri Vocabulary.Rdfs.subClassOf, .iri Vocabulary.Owl.nothing⟩,
   ⟨.blank "s", .iri Vocabulary.Owl.onProperty, .iri "p"⟩,
   ⟨.blank "s", .iri Vocabulary.Owl.someValuesFrom, .iri "D"⟩,
   ⟨.blank "t", .iri Vocabulary.Rdfs.subClassOf, .iri "B"⟩,
   ⟨.blank "t", .iri Vocabulary.Owl.onProperty, .iri "p"⟩,
   ⟨.blank "t", .iri Vocabulary.Owl.someValuesFrom, .blank "u"⟩,
   ⟨.blank "u", .iri Vocabulary.Owl.onProperty, .iri "q"⟩,
   ⟨.blank "u", .iri Vocabulary.Owl.hasValue, .var ⟨"v2"⟩⟩]

/-- The clause of the second axiom with `y` in the place of the variable made for it. -/
def interferingClause (y : Variable) : Clause :=
  ⟨"subClassOf(_:t, <B>)", .atom ⟨.var ⟨"x"⟩, .iri Vocabulary.Rdf.type, .iri "B"⟩,
    .and [.atom ⟨.var ⟨"x"⟩, .iri "p", .var y⟩, .atom ⟨.var y, .iri "q", .var ⟨"v2"⟩⟩]⟩

/-- The axiom that fails takes the first number, and the variable made for the other one is the one
that the graph has. -/
theorem failure_interferes : ¬ CompiledApart interfering ∧
    (compile interfering).clauses = [interferingClause ⟨"v2"⟩] ∧
    ((Axiom.subClassOf (.blank "t") (.iri "B")).alone interfering 0).clauses =
      [interferingClause ⟨"v1"⟩] := by
  have hall : Axiom.all interfering = [.subClassOf (.blank "s") (.iri Vocabulary.Owl.nothing),
      .subClassOf (.blank "t") (.iri "B")] := by decide +kernel
  have hcompiled : (compile interfering).clauses = [interferingClause ⟨"v2"⟩] := by rfl
  have hfails : ((Axiom.subClassOf (.blank "s") (.iri Vocabulary.Owl.nothing)).alone interfering
      0).clauses = [] := by decide +kernel
  have halone : ((Axiom.subClassOf (.blank "t") (.iri "B")).alone interfering 0).clauses =
      [interferingClause ⟨"v1"⟩] := by rfl
  refine ⟨?_, hcompiled, halone⟩
  rintro ⟨parts, hflatten, hparts⟩
  rw [hall] at hparts
  obtain _ | ⟨⟨_, _, _, hfirst⟩, _ | ⟨⟨f, hf, _, hsecond⟩, _ | _⟩⟩ := hparts
  rw [hfails] at hfirst
  rw [halone] at hsecond
  rw [hcompiled, hfirst, hsecond] at hflatten
  have hclause : interferingClause ⟨"v2"⟩ = (interferingClause ⟨"v1"⟩).rename f :=
    List.singleton_inj.mp hflatten
  have hobjects : [Term.var ⟨"v2"⟩, .var ⟨"v2"⟩] = [.var (f ⟨"v1"⟩), .var (f ⟨"v2"⟩)] :=
    congrArg (fun c : Clause => c.body.atoms.map Triple.object) hclause
  simp only [List.cons.injEq, Term.var.injEq, and_true] at hobjects
  exact absurd (hf (hobjects.1.symm.trans hobjects.2)) (by decide)

end HornReasoner.Ontology
