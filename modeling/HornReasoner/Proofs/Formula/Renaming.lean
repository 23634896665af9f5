import HornReasoner.Proofs.Formula.Horn
import HornReasoner.Proofs.Rule.Atoms

/-! Renaming variables.

Taking a clause apart looks at its shape and at no atom, so it commutes with a renaming of
variables (`candidates_rename`). Making a rule compares variables, so there the renaming has to
keep them apart from each other and from those that blank nodes become. Then the rules of a
renamed clause are its renamed rules (`renamed_rules`). -/
namespace HornReasoner

def Term.rename (f : Variable → Variable) : Term → Term
  | .var v => .var (f v)
  | t => t

def Triple.rename (f : Variable → Variable) (t : Triple) : Triple := t.map (Term.rename f)

variable {f g : Variable → Variable}

theorem Term.rename_rename (x : Term) : (x.rename f).rename g = x.rename (g ∘ f) := by
  cases x <;> rfl

theorem Triple.rename_comp : Triple.rename g ∘ Triple.rename f = Triple.rename (g ∘ f) := by
  funext t
  simp only [Function.comp_apply, rename, map, Term.rename_rename]

theorem Term.rename_id (x : Term) : x.rename id = x := by
  cases x <;> rfl

theorem Triple.rename_id : Triple.rename id = id :=
  funext fun _ => map_eq_self fun x _ => x.rename_id

theorem Triple.vars_rename (t : Triple) : (t.rename f).vars = t.vars.map f := by
  have hvar : ∀ x : Term, (x.rename f).var? = x.var?.map f := fun x => by cases x <;> rfl
  show (t.terms.map (Term.rename f)).filterMap Term.var? = _
  rw [List.filterMap_map, vars, List.map_filterMap]
  exact List.filterMap_congr fun x _ => hvar x

/-! ### Formulas -/

namespace Formula

mutual

def rename (f : Variable → Variable) : Formula → Formula
  | atom t => atom (t.rename f)
  | conj parts => conj (renameAll f parts)
  | disj parts => disj (renameAll f parts)
  | exist vars inner => exist (vars.map f) (inner.rename f)
  | implies body head => implies (body.rename f) (head.rename f)

def renameAll (f : Variable → Variable) : List Formula → List Formula
  | [] => []
  | part :: rest => part.rename f :: renameAll f rest

end

theorem renameAll_eq (parts : List Formula) : renameAll f parts = parts.map (rename f) := by
  induction parts with
  | nil => rfl
  | cons part rest ih => rw [renameAll, ih, List.map_cons]

@[simp] theorem rename_conj (parts : List Formula) :
    (conj parts).rename f = conj (parts.map (rename f)) := by
  rw [rename, renameAll_eq]

@[simp] theorem rename_disj (parts : List Formula) :
    (disj parts).rename f = disj (parts.map (rename f)) := by
  rw [rename, renameAll_eq]

theorem rename_and (parts : List Formula) : (and parts).rename f = and (parts.map (rename f)) := by
  rcases parts with _ | ⟨part, _ | ⟨other, rest⟩⟩
  · rfl
  · rfl
  · exact rename_conj _

theorem rename_or (parts : List Formula) : (or parts).rename f = or (parts.map (rename f)) := by
  rcases parts with _ | ⟨part, _ | ⟨other, rest⟩⟩
  · rfl
  · rfl
  · exact rename_disj _

theorem rename_id (φ : Formula) : φ.rename id = φ := by
  have hparts : ∀ parts : List Formula, (∀ part ∈ parts, part.rename id = part) →
      parts.map (rename id) = parts := fun parts hparts =>
    (List.map_congr_left hparts).trans (List.map_id parts)
  induction φ with
  | atom t => rw [rename, Triple.rename_id, id]
  | conj parts ih => rw [rename_conj, hparts parts ih]
  | disj parts ih => rw [rename_disj, hparts parts ih]
  | exist vars inner ih => rw [rename, List.map_id, ih]
  | implies body head ihb ihh => rw [rename, ihb, ihh]

@[simp] theorem isEmptyConj_rename (φ : Formula) : (φ.rename f).isEmptyConj = φ.isEmptyConj := by
  cases φ with
  | conj parts => cases parts <;> rfl
  | atom t | disj parts | exist vars inner | implies body head => rfl

@[simp] theorem size_rename (φ : Formula) : (φ.rename f).size = φ.size := by
  have hsizes : ∀ parts : List Formula, (∀ part ∈ parts, (part.rename f).size = part.size) →
      sizes (parts.map (rename f)) = sizes parts := by
    intro parts hparts
    induction parts with
    | nil => rfl
    | cons part rest ih =>
      obtain ⟨hpart, hrest⟩ := List.forall_mem_cons.mp hparts
      rw [List.map_cons, sizes, sizes, hpart, ih hrest]
  induction φ with
  | atom t => rfl
  | conj parts ih => rw [rename_conj, size, size, hsizes parts ih]
  | disj parts ih => rw [rename_disj, size, size, hsizes parts ih]
  | exist vars inner ih => rw [rename, size, size, ih]
  | implies body head ihb ihh => rw [rename, size, size, ihb, ihh]

@[simp] theorem countDisjunctions_rename (φ : Formula) (insideDisj : Bool) :
    (φ.rename f).countDisjunctions insideDisj = φ.countDisjunctions insideDisj := by
  have hcounts : ∀ parts : List Formula, (∀ part ∈ parts, ∀ insideDisj,
        (part.rename f).countDisjunctions insideDisj = part.countDisjunctions insideDisj) →
      ∀ insideDisj, countAll insideDisj (parts.map (rename f)) = countAll insideDisj parts := by
    intro parts hparts insideDisj
    induction parts with
    | nil => rfl
    | cons part rest ih =>
      obtain ⟨hpart, hrest⟩ := List.forall_mem_cons.mp hparts
      rw [List.map_cons, countAll, countAll, hpart, ih hrest]
  induction φ generalizing insideDisj with
  | atom t => rfl
  | conj parts ih => rw [rename_conj, countDisjunctions, countDisjunctions, hcounts parts ih]
  | disj parts ih => rw [rename_disj, countDisjunctions, countDisjunctions, hcounts parts ih]
  | exist vars inner ih => rw [rename, countDisjunctions, countDisjunctions, ih]
  | implies body head ihb ihh => rw [rename, countDisjunctions, countDisjunctions, ihb, ihh]

/-- Alternatives renamed, or the renamed implication that stands in their way. -/
def renameOptions (f : Variable → Variable) :
    Except Formula (List (List Triple)) → Except Formula (List (List Triple))
  | .ok options => .ok (options.map (List.map (Triple.rename f)))
  | .error φ => .error (φ.rename f)

theorem foldl_pairs_rename (options : List (List (List Triple))) (found : List (List Triple)) :
    (options.map (List.map (List.map (Triple.rename f)))).foldl pairs
        (found.map (List.map (Triple.rename f))) =
      (options.foldl pairs found).map (List.map (Triple.rename f)) := by
  induction options generalizing found with
  | nil => rfl
  | cons first rest ih =>
    rw [List.map_cons, List.foldl_cons, List.foldl_cons, ← ih]
    congr 1
    simp only [pairs, List.flatMap_map, List.map_flatMap, List.map_map, Function.comp_def,
      List.map_append]

theorem alternatives_rename (φ : Formula) :
    (φ.rename f).alternatives = renameOptions f φ.alternatives := by
  have hparts : ∀ parts : List Formula,
      (∀ part ∈ parts, (part.rename f).alternatives = renameOptions f part.alternatives) →
      alternativesOf (parts.map (rename f)) =
        match alternativesOf parts with
        | .ok options => .ok (options.map (List.map (List.map (Triple.rename f))))
        | .error φ => .error (φ.rename f) := by
    intro parts hparts
    induction parts with
    | nil => rfl
    | cons part rest ih =>
      obtain ⟨hpart, hrest⟩ := List.forall_mem_cons.mp hparts
      rw [List.map_cons, alternativesOf, alternativesOf, hpart, ih hrest]
      cases part.alternatives with
      | error φ => rfl
      | ok options => cases alternativesOf rest <;> rfl
  induction φ with
  | atom t => rfl
  | conj parts ih =>
    rw [rename_conj, alternatives, alternatives, hparts parts ih]
    cases alternativesOf parts with
    | error φ => rfl
    | ok options => exact congrArg Except.ok (foldl_pairs_rename options [[]])
  | disj parts ih =>
    rw [rename_disj, alternatives, alternatives, hparts parts ih]
    cases alternativesOf parts with
    | error φ => rfl
    | ok options => exact congrArg Except.ok List.map_flatten.symm
  | exist vars inner ih => rw [rename, alternatives, alternatives, ih]
  | implies body head _ _ => rfl

theorem conjuncts_rename (φ : Formula) :
    (φ.rename f).conjuncts? = φ.conjuncts?.map (List.map (Triple.rename f)) := by
  have hparts : ∀ parts : List Formula,
      (∀ part ∈ parts,
        (part.rename f).conjuncts? = part.conjuncts?.map (List.map (Triple.rename f))) →
      conjunctsOf? (parts.map (rename f)) =
        (conjunctsOf? parts).map (List.map (Triple.rename f)) := by
    intro parts hparts
    induction parts with
    | nil => rfl
    | cons part rest ih =>
      obtain ⟨hpart, hrest⟩ := List.forall_mem_cons.mp hparts
      rw [List.map_cons, conjunctsOf?, conjunctsOf?, hpart, ih hrest]
      cases part.conjuncts? with
      | none => rfl
      | some first =>
        cases conjunctsOf? rest with
        | none => rfl
        | some others => simp
  induction φ with
  | atom t => rfl
  | conj parts ih => rw [rename_conj, conjuncts?, conjuncts?, hparts parts ih]
  | disj parts _ => rfl
  | exist vars inner ih => rw [rename, conjuncts?, conjuncts?, ih]
  | implies body head _ _ => rfl

end Formula

/-! ### Clauses -/

namespace Clause

open Formula

def rename (f : Variable → Variable) (c : Clause) : Clause :=
  { c with head := c.head.rename f, body := c.body.rename f }

theorem rename_id (c : Clause) : c.rename id = c := by
  rw [rename, Formula.rename_id, Formula.rename_id]

def Obstacle.rename (f : Variable → Variable) : Obstacle → Obstacle
  | disjunctiveHead head => disjunctiveHead (head.rename f)
  | existentialHead inner => existentialHead (inner.rename f)
  | manyDisjunctions count => manyDisjunctions count
  | implication φ => implication (φ.rename f)
  | neverHolds body => neverHolds (body.rename f)
  | alwaysTrue body => alwaysTrue (body.rename f)

def Implication.rename (f : Variable → Variable) (i : Implication) : Implication :=
  ⟨i.head.rename f, i.body.rename f⟩

def Part.rename (f : Variable → Variable) : Part → Part
  | rule head body => rule (head.map (Triple.rename f)) (body.rename f)
  | dropped obstacle => dropped (obstacle.rename f)

def Candidate.rename (f : Variable → Variable) : Candidate → Candidate
  | rule head body => rule (head.map (Triple.rename f)) (body.map (Triple.rename f))
  | dropped obstacle => dropped (obstacle.rename f)

theorem Implication.emitted_rename (i : Implication) :
    (i.rename f).emitted = i.emitted.map (Part.rename f) := by
  obtain ⟨head, body⟩ := i
  cases head with
  | atom t | conj parts | disj parts | implies inner head => rfl
  | exist vars inner =>
    simp only [rename, Formula.rename, emitted, conjuncts_rename]
    cases inner.conjuncts? <;> rfl

theorem Implication.remaining_rename (i : Implication) :
    (i.rename f).remaining = i.remaining.map (Implication.rename f) := by
  obtain ⟨head, body⟩ := i
  cases head with
  | conj parts =>
    simp only [rename, rename_conj, remaining, List.map_map]
    rfl
  | implies inner head =>
    simp only [rename, Formula.rename, remaining, List.map_singleton, rename_and]
    rfl
  | atom t | disj parts | exist vars inner => rfl

theorem split_rename (fuel : Nat) (queue : List Implication) :
    split fuel (queue.map (Implication.rename f)) = (split fuel queue).map (Part.rename f) := by
  induction fuel generalizing queue with
  | zero => rfl
  | succ fuel ih =>
    cases queue with
    | nil => rfl
    | cons i rest =>
      rw [List.map_cons, split_cons, split_cons, Implication.emitted_rename,
        Implication.remaining_rename, ← List.map_append, ih, List.map_append]

theorem parts_rename (c : Clause) : (c.rename f).parts = c.parts.map (Part.rename f) := by
  rw [parts, parts, ← split_rename]
  simp [rename, Implication.rename]

theorem Part.candidates_rename (truth : Bool) (part : Part) :
    (part.rename f).candidates truth = (part.candidates truth).map (Candidate.rename f) := by
  cases part with
  | dropped obstacle => rfl
  | rule head body =>
    simp only [rename, candidates, countDisjunctions_rename, alternatives_rename]
    split
    · rfl
    · cases body.alternatives with
      | error φ => rfl
      | ok options =>
        cases options with
        | nil => rfl
        | cons first rest =>
          have halternative : ∀ alt : List Triple,
              (if (alt.map (Triple.rename f)).isEmpty && !truth then
                Candidate.dropped (.alwaysTrue (body.rename f))
              else .rule (head.map (Triple.rename f)) (alt.map (Triple.rename f))) =
                (if alt.isEmpty && !truth then Candidate.dropped (.alwaysTrue body)
                else .rule head alt).rename f := by
            intro alt
            rw [List.isEmpty_map]
            split <;> rfl
          simp only [renameOptions, List.map_cons, List.map_map, Function.comp_def, halternative]

/-- Taking a renamed clause apart gives the renamed candidates. -/
theorem candidates_rename (c : Clause) :
    (c.rename f).candidates = c.candidates.map (Candidate.rename f) := by
  have htruth : (c.rename f).body.isEmptyConj = c.body.isEmptyConj := isEmptyConj_rename c.body
  rw [candidates, candidates, htruth, parts_rename, List.flatMap_map, List.map_flatMap]
  exact List.flatMap_congr fun part _ => part.candidates_rename _

end Clause

/-! ### Rules -/

theorem eraseDups_map {α β : Type} [BEq α] [LawfulBEq α] [BEq β] [LawfulBEq β] {h : α → β}
    (hinjective : Function.Injective h) : ∀ as : List α, (as.map h).eraseDups = as.eraseDups.map h
  | [] => rfl
  | a :: as => by
    have hne : ((fun b => !b == h a) ∘ h) = fun b => !b == a := by
      funext b
      simp [hinjective.eq_iff]
    rw [List.map_cons, List.eraseDups_cons, List.eraseDups_cons, List.filter_map, hne,
      eraseDups_map hinjective, List.map_cons]
  termination_by as => as.length
  decreasing_by
    have hle := List.length_filter_le (fun b => !b == a) as
    simp only [List.length_cons]
    omega

namespace HornRule

/-- One rule is the other one renamed, whatever the labels. -/
structure Renamed (f : Variable → Variable) (r s : HornRule) : Prop where
  body : s.body = r.body.map (Triple.rename f)
  head : s.head = r.head.map (Triple.rename f)
  existentials : s.existentials = r.existentials.map f

theorem Renamed.trans {r s t : HornRule} (h : Renamed f r s) (h' : Renamed g s t) :
    Renamed (g ∘ f) r t where
  body := by rw [h'.body, h.body, List.map_map, Triple.rename_comp]
  head := by rw [h'.head, h.head, List.map_map, Triple.rename_comp]
  existentials := by rw [h'.existentials, h.existentials, List.map_map]

theorem Renamed.inverse {r s : HornRule} (h : Renamed f r s) (hgf : g ∘ f = id) :
    Renamed g s r where
  body := by rw [h.body, List.map_map, Triple.rename_comp, hgf, Triple.rename_id, List.map_id]
  head := by rw [h.head, List.map_map, Triple.rename_comp, hgf, Triple.rename_id, List.map_id]
  existentials := by rw [h.existentials, List.map_map, hgf, List.map_id]

theorem Renamed.refl (r : HornRule) : Renamed id r r where
  body := by rw [Triple.rename_id, List.map_id]
  head := by rw [Triple.rename_id, List.map_id]
  existentials := (List.map_id _).symm

theorem headOnly_rename (hf : Function.Injective f) (body head : List Triple) :
    headOnly (body.map (Triple.rename f)) (head.map (Triple.rename f)) =
      (headOnly body head).map f := by
  have hvars : ∀ ts : List Triple,
      (ts.map (Triple.rename f)).flatMap Triple.vars = (ts.flatMap Triple.vars).map f := by
    intro ts
    simp only [List.flatMap_map, Triple.vars_rename, List.map_flatMap]
  have hkept : ((fun v => !((body.flatMap Triple.vars).map f).contains v) ∘ f) =
      fun v => !(body.flatMap Triple.vars).contains v := by
    funext v
    simp [hf.eq_iff]
  rw [headOnly, headOnly, hvars, hvars, List.filter_map, hkept, eraseDups_map hf]

/-- Making a rule of renamed atoms gives the renamed rule. -/
theorem renamed_ofAtoms (hf : Function.Injective f)
    (hblank : ∀ label, f ⟨"_" ++ label⟩ = ⟨"_" ++ label⟩) (label label' : String)
    (body head : List Triple) :
    Renamed f (ofAtoms label body head)
      (ofAtoms label' (body.map (Triple.rename f)) (head.map (Triple.rename f))) := by
  have hterm : ∀ x : Term, withoutBlank (x.rename f) = (withoutBlank x).rename f := by
    intro x
    cases x with
    | blank s => exact congrArg Term.var (hblank s).symm
    | iri s | literal l | var v => rfl
  have hatoms : ∀ ts : List Triple, (ts.map (Triple.rename f)).map (·.map withoutBlank) =
      (ts.map (·.map withoutBlank)).map (Triple.rename f) := fun ts => by
    simp only [List.map_map, Function.comp_def, Triple.rename, Triple.map, hterm]
  exact ⟨hatoms body, hatoms head, by rw [ofAtoms, hatoms, hatoms, headOnly_rename hf, ofAtoms]⟩

end HornRule

/-- **The rules of a renamed clause are its renamed rules**, labels aside. -/
theorem Clause.renamed_rules (hf : Function.Injective f)
    (hblank : ∀ label, f ⟨"_" ++ label⟩ = ⟨"_" ++ label⟩) {c d : Clause}
    (hhead : d.head = c.head.rename f) (hbody : d.body = c.body.rename f) :
    (∀ r ∈ c.normalize.rules, ∃ s ∈ d.normalize.rules, HornRule.Renamed f r s) ∧
      ∀ s ∈ d.normalize.rules, ∃ r ∈ c.normalize.rules, HornRule.Renamed f r s := by
  have hcandidates : d.candidates = c.candidates.map (Candidate.rename f) := by
    rw [← candidates_rename]
    obtain ⟨label, head, body⟩ := d
    cases hhead
    cases hbody
    rfl
  constructor
  · intro r hr
    obtain ⟨label, head, body, hcandidate, rfl⟩ := mem_normalize_rules hr
    have hmem : .rule (head.map (Triple.rename f)) (body.map (Triple.rename f)) ∈ d.candidates :=
      hcandidates ▸ List.mem_map_of_mem hcandidate
    obtain ⟨label', hs⟩ := exists_mem_normalize_rules hmem
    exact ⟨_, hs, HornRule.renamed_ofAtoms hf hblank label label' body head⟩
  · intro s hs
    obtain ⟨label, head, body, hcandidate, rfl⟩ := mem_normalize_rules hs
    rw [hcandidates] at hcandidate
    obtain ⟨candidate, hmem, heq⟩ := List.mem_map.mp hcandidate
    cases candidate with
    | dropped obstacle => cases heq
    | rule head' body' =>
      cases heq
      obtain ⟨label', hr⟩ := exists_mem_normalize_rules hmem
      exact ⟨_, hr, HornRule.renamed_ofAtoms hf hblank label' label body' head'⟩

end HornReasoner
