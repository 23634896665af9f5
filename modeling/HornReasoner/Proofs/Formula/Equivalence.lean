import HornReasoner.Proofs.Formula.Horn
import HornReasoner.Proofs.Rule.Atoms

/-! Clauses and their rules.

Taking a clause apart comes to an end whatever the clause (`Clause.takenApart`). Its rules are
true wherever it is, also where parts were dropped; if none was, it is true wherever they are. -/
namespace HornReasoner.Clause

open Formula

/-! ### The end of taking apart -/

/-- Taking the first implication apart, and queueing what it leaves behind the others, empties
the queue and gives the parts. -/
inductive TakenApart : List Implication → List Part → Prop
  | done : TakenApart [] []
  | step {i : Implication} {rest : List Implication} {parts : List Part} :
    TakenApart (rest ++ i.remaining) parts → TakenApart (i :: rest) (i.emitted ++ parts)

/-- A step that takes an implication from the queue makes its heads smaller. -/
theorem sizes_step (i : Implication) (rest : List Implication) :
    sizes ((rest ++ i.remaining).map fun j => j.head) <
      sizes ((i :: rest).map fun j => j.head) := by
  have hstep := i.sizes_remaining
  rw [List.map_append, sizes_append, List.map_cons, sizes]
  omega

/-- Fuel for all nodes of the heads is enough to empty the queue. -/
theorem takenApart_split {fuel : Nat} {queue : List Implication}
    (hfuel : sizes (queue.map fun i => i.head) ≤ fuel) : TakenApart queue (split fuel queue) := by
  induction fuel generalizing queue with
  | zero =>
    cases queue with
    | nil => exact .done
    | cons i rest => exact absurd (sizes_step i rest) (by omega)
  | succ fuel ih =>
    cases queue with
    | nil => exact .done
    | cons i rest =>
      rw [split_cons]
      have hstep := sizes_step i rest
      exact .step (ih (by omega))

theorem takenApart (c : Clause) : TakenApart [⟨c.head, c.body⟩] c.parts := by
  apply takenApart_split
  simp [sizes]

/-! ### What the rules say -/

/-- No atom of the clause has a blank node. -/
def BlankFree (c : Clause) : Prop :=
  c.head.AllAtoms (fun t => ∀ x ∈ t.terms, x.isBlank = false) ∧
    c.body.AllAtoms fun t => ∀ x ∈ t.terms, x.isBlank = false

variable {truth : Triple → Prop} {c : Clause}

/-- Without blank nodes a rule has the atoms of its candidate. -/
theorem BlankFree.ofAtoms_eq (hblank : c.BlankFree) {label : String} {head body : List Triple}
    (h : .rule head body ∈ c.candidates) :
    HornRule.ofAtoms label body head = ⟨label, body, head, HornRule.headOnly body head⟩ := by
  obtain ⟨hhead, hbody⟩ := candidates_atoms hblank.1 hblank.2 h
  exact HornRule.ofAtoms_of_not_isBlank hbody hhead

theorem Holds.rules (h : c.Holds truth) (hblank : c.BlankFree) :
    ∀ rule ∈ c.normalize.rules, rule.Holds truth := by
  intro rule hrule
  obtain ⟨label, head, body, hcandidate, rfl⟩ := mem_normalize_rules hrule
  rw [hblank.ofAtoms_eq hcandidate]
  exact h.candidates hcandidate

theorem holds_of_rules (hblank : c.BlankFree) (hdropped : c.normalize.dropped = [])
    (h : ∀ rule ∈ c.normalize.rules, rule.Holds truth) : c.Holds truth := by
  refine holds_of_candidates (not_dropped_of_normalize hdropped) fun head body hcandidate => ?_
  obtain ⟨label, hrule⟩ := exists_mem_normalize_rules hcandidate
  have hholds := h _ hrule
  rwa [hblank.ofAtoms_eq hcandidate] at hholds

/-- **A clause and its rules say the same.** Taking it apart ends; without blank nodes its rules
are true wherever it is, and it is true wherever they are if nothing was dropped. -/
theorem rules_equivalent (c : Clause) : TakenApart [⟨c.head, c.body⟩] c.parts ∧
    (c.BlankFree → ∀ truth : Triple → Prop,
      (c.Holds truth → ∀ rule ∈ c.normalize.rules, rule.Holds truth) ∧
      (c.normalize.dropped = [] → (∀ rule ∈ c.normalize.rules, rule.Holds truth) →
        c.Holds truth)) :=
  ⟨c.takenApart, fun hblank _ => ⟨fun h => h.rules hblank, holds_of_rules hblank⟩⟩

/-- Members of `A` or `B` are `C`, and `D` as well if they are `E`. -/
def nested : Clause where
  label := "nested"
  head := .and [classAtom (.var ⟨"x"⟩) (.iri "C"),
    .implies (classAtom (.var ⟨"x"⟩) (.iri "E")) (classAtom (.var ⟨"x"⟩) (.iri "D"))]
  body := .or [classAtom (.var ⟨"x"⟩) (.iri "A"), classAtom (.var ⟨"x"⟩) (.iri "B")]

theorem rules_equivalent_of_nested : nested.BlankFree ∧ nested.normalize.dropped = [] ∧
    nested.normalize.rules.length = 4 ∧
    (nested.Holds (· ∈ [⟨.var ⟨"x"⟩, .iri Vocabulary.Rdf.type, .iri "A"⟩]) ↔
      ∀ rule ∈ nested.normalize.rules,
        rule.Holds (· ∈ [⟨.var ⟨"x"⟩, .iri Vocabulary.Rdf.type, .iri "A"⟩])) := by
  have hblank : nested.BlankFree := by
    simp [BlankFree, nested, classAtom, Triple.terms, Term.isBlank]
  obtain ⟨hto, hfrom⟩ := (rules_equivalent nested).2 hblank
    (· ∈ [⟨.var ⟨"x"⟩, .iri Vocabulary.Rdf.type, .iri "A"⟩])
  exact ⟨hblank, rfl, rfl, hto, hfrom rfl⟩

end HornReasoner.Clause
