import HornReasoner.Proofs.Network.Plan
import HornReasoner.Proofs.Order.Permutation
import Mathlib.Data.List.Infix
import Mathlib.Order.Bounds.Defs

/-! Where a plan puts its tests.

Patterns stay in the order of the body. A test goes behind the patterns written before it,
and behind as many more as it takes to bind its variables, no further; tests that come to
the same place keep their order. A body has a plan exactly if its tests without variables
hold and its patterns bind the variables of all others, and the places above determine that
plan (`plan_eq_ok_iff`, `plan_places`). -/
namespace HornReasoner

/-! ### Places -/

namespace PlanStep

def builtin? : PlanStep → Option Triple
  | pattern _ => none
  | builtin t => some t

/-- The tests of a plan in their order, each with the number of patterns before it. -/
def tests : List PlanStep → List (Nat × Triple)
  | [] => []
  | .pattern _ :: rest => (tests rest).map (Prod.map (· + 1) id)
  | .builtin t :: rest => (0, t) :: tests rest

@[simp] theorem pattern?_pattern (t : Triple) : (pattern t).pattern? = some t := rfl
@[simp] theorem pattern?_builtin (t : Triple) : (builtin t).pattern? = none := rfl
@[simp] theorem builtin?_pattern (t : Triple) : (pattern t).builtin? = none := rfl
@[simp] theorem builtin?_builtin (t : Triple) : (builtin t).builtin? = some t := rfl

@[simp] theorem tests_builtins (ts : List Triple) :
    tests (ts.map .builtin) = ts.map fun t => (0, t) := by
  induction ts with
  | nil => rfl
  | cons t rest ih => simp [tests, ih]

theorem tests_append (as bs : List PlanStep) : tests (as ++ bs) =
    tests as ++ (tests bs).map (Prod.map (· + (as.filterMap pattern?).length) id) := by
  induction as with
  | nil => exact (List.map_id _).symm
  | cons step rest ih =>
    cases step with
    | pattern t => simp [tests, ih, Function.comp_def, Nat.add_assoc]
    | builtin t => simp [tests, ih, List.filterMap_cons]

theorem map_snd_tests (steps : List PlanStep) :
    (tests steps).map Prod.snd = steps.filterMap builtin? := by
  induction steps with
  | nil => rfl
  | cons step rest ih =>
    cases step with
    | pattern t => simp [tests, Function.comp_def, List.filterMap_cons, ← ih]
    | builtin t => simp [tests, ih]

/-- A test has at most all patterns before it. -/
theorem tests_le (steps : List PlanStep) :
    ∀ e ∈ tests steps, e.1 ≤ (steps.filterMap pattern?).length := by
  induction steps with
  | nil => simp [tests]
  | cons step rest ih =>
    cases step with
    | pattern t =>
      refine List.forall_mem_map.mpr fun e he => ?_
      simpa using ih e he
    | builtin t =>
      refine List.forall_mem_cons.mpr ⟨Nat.zero_le _, fun e he => ?_⟩
      simpa [List.filterMap_cons] using ih e he

/-- A test stands where a plan can be split at it. -/
theorem mem_tests_of_split (before : List PlanStep) (atom : Triple) (after : List PlanStep) :
    ((before.filterMap pattern?).length, atom) ∈ tests (before ++ .builtin atom :: after) := by
  simp [tests_append, tests]

/-- The tests of a plan behind just `k` patterns, in their order. -/
def testsAt (k : Nat) (steps : List PlanStep) : List Triple :=
  ((tests steps).filter (·.1 == k)).map Prod.snd

section
variable (k : Nat) (t : Triple) (rest : List PlanStep)

@[simp] theorem testsAt_nil : testsAt k [] = [] := rfl

@[simp] theorem testsAt_pattern_zero : testsAt 0 (.pattern t :: rest) = [] := by
  show (((tests rest).map _).filter _).map Prod.snd = []
  simp [List.filter_map, Function.comp_def]

@[simp] theorem testsAt_pattern_succ :
    testsAt (k + 1) (.pattern t :: rest) = testsAt k rest := by
  show (((tests rest).map _).filter _).map Prod.snd = ((tests rest).filter _).map Prod.snd
  simp [List.filter_map, Function.comp_def]

@[simp] theorem testsAt_builtin_zero : testsAt 0 (.builtin t :: rest) = t :: testsAt 0 rest := rfl

@[simp] theorem testsAt_builtin_succ :
    testsAt (k + 1) (.builtin t :: rest) = testsAt (k + 1) rest := rfl

end

theorem testsAt_builtins (k : Nat) (ts : List Triple) :
    testsAt k (ts.map .builtin) = if k = 0 then ts else [] := by
  rw [testsAt, tests_builtins, List.filter_map, List.map_map]
  cases k <;> simp [Function.comp_def]

theorem testsAt_append (k : Nat) (as bs : List PlanStep) : testsAt k (as ++ bs) = testsAt k as ++
    if (as.filterMap pattern?).length ≤ k then testsAt (k - (as.filterMap pattern?).length) bs
    else [] := by
  induction as generalizing k with
  | nil => simp
  | cons step rest ih =>
    cases step with
    | pattern t =>
      cases k with
      | zero => simp
      | succ k => simpa using ih k
    | builtin t =>
      rw [List.filterMap_cons_none rfl]
      cases k with
      | zero => simpa using ih 0
      | succ k => simpa using ih (k + 1)

theorem testsAt_of_lt {k : Nat} {steps : List PlanStep}
    (h : (steps.filterMap pattern?).length < k) : testsAt k steps = [] := by
  rw [testsAt, List.map_eq_nil_iff, List.filter_eq_nil_iff]
  intro e he hk
  exact absurd (tests_le steps e he) (by simp at hk; omega)

/-- One test more. -/
theorem testsAt_append_builtin (k : Nat) (steps : List PlanStep) (t : Triple) :
    testsAt k (steps ++ [.builtin t]) =
      testsAt k steps ++ if (steps.filterMap pattern?).length = k then [t] else [] := by
  rw [testsAt_append]
  congr 1
  split
  · rename_i hle
    obtain ⟨j, rfl⟩ := Nat.exists_eq_add_of_le hle
    cases j <;> simp
  · rw [if_neg (by omega)]

/-- One pattern more, and what is tested behind it. -/
theorem testsAt_append_pattern (k : Nat) (steps : List PlanStep) (t : Triple) (ts : List Triple) :
    testsAt k (steps ++ .pattern t :: ts.map .builtin) =
      if k = (steps.filterMap pattern?).length + 1 then ts else testsAt k steps := by
  rw [testsAt_append]
  split
  · rename_i hle
    obtain ⟨j, rfl⟩ := Nat.exists_eq_add_of_le hle
    cases j with
    | zero => simp
    | succ j =>
      rw [testsAt_of_lt (by omega), Nat.add_sub_cancel_left, testsAt_pattern_succ,
        testsAt_builtins]
      simp
  · rw [List.append_nil, if_neg (by omega)]

/-- **Patterns and tests make a plan**: plans with the same patterns and the same tests at
each place are the same. -/
theorem eq_of_testsAt {as bs : List PlanStep}
    (hpatterns : as.filterMap pattern? = bs.filterMap pattern?)
    (htests : ∀ k, testsAt k as = testsAt k bs) : as = bs := by
  induction as generalizing bs with
  | nil =>
    cases bs with
    | nil => rfl
    | cons step others =>
      cases step with
      | pattern u => simp at hpatterns
      | builtin u => simpa using htests 0
  | cons step rest ih =>
    cases step with
    | pattern t =>
      cases bs with
      | nil => simp at hpatterns
      | cons step others =>
        cases step with
        | pattern u =>
          simp only [List.filterMap_cons, pattern?_pattern, List.cons.injEq] at hpatterns
          have hrest : rest = others := ih hpatterns.2 fun k => by simpa using htests (k + 1)
          rw [hpatterns.1, hrest]
        | builtin u => simpa using htests 0
    | builtin t =>
      cases bs with
      | nil => simpa using htests 0
      | cons step others =>
        cases step with
        | pattern u => simpa using htests 0
        | builtin u =>
          have hfirst := htests 0
          simp only [testsAt_builtin_zero, List.cons.injEq] at hfirst
          have hrest : rest = others := by
            refine ih hpatterns fun k => ?_
            cases k with
            | zero => exact hfirst.2
            | succ k => simpa using htests (k + 1)
          rw [hfirst.1, hrest]

end PlanStep

/-- The patterns bind all variables of the atom. -/
def Triple.BoundBy (patterns : List Triple) (atom : Triple) : Prop :=
  ∀ v ∈ atom.vars, v ∈ patterns.flatMap Triple.vars

instance (patterns : List Triple) (atom : Triple) : Decidable (atom.BoundBy patterns) :=
  inferInstanceAs (Decidable (∀ v ∈ atom.vars, v ∈ patterns.flatMap Triple.vars))

/-- How many of the patterns, from the first on, it takes to bind the atom's variables. -/
def Triple.need (patterns : List Triple) (atom : Triple) : Nat :=
  patterns.inits.findIdx fun start => decide (atom.BoundBy start)

namespace Triple
variable {patterns : List Triple} {atom : Triple}

theorem BoundBy.append (h : atom.BoundBy patterns) (more : List Triple) :
    atom.BoundBy (patterns ++ more) := by
  intro v hv
  rw [List.flatMap_append]
  exact List.mem_append_left _ (h v hv)

theorem BoundBy.of_take {k : Nat} (h : atom.BoundBy (patterns.take k)) :
    atom.BoundBy patterns := by
  rw [← List.take_append_drop k patterns]
  exact h.append _

theorem need_lt (h : atom.BoundBy patterns) : atom.need patterns < patterns.inits.length :=
  List.findIdx_lt_length_of_exists ⟨patterns, by simp, by simpa using h⟩

theorem need_le (h : atom.BoundBy patterns) : atom.need patterns ≤ patterns.length := by
  have hlt := need_lt h
  rw [List.length_inits] at hlt
  exact Nat.le_of_lt_succ hlt

/-- No fewer patterns bind the atom. -/
theorem isLeast_need (h : atom.BoundBy patterns) :
    IsLeast {k | atom.BoundBy (patterns.take k)} (atom.need patterns) := by
  constructor
  · show atom.BoundBy (patterns.take (atom.need patterns))
    rw [← List.getElem_inits patterns _ (need_lt h)]
    exact of_decide_eq_true (List.findIdx_getElem (w := need_lt h))
  · intro k hk
    by_contra hlt
    have hnot := List.not_of_lt_findIdx (Nat.lt_of_not_le hlt)
    rw [List.getElem_inits] at hnot
    exact absurd hk (of_decide_eq_false hnot)

theorem need_append (h : atom.BoundBy patterns) (more : List Triple) :
    atom.need (patterns ++ more) = atom.need patterns := by
  rw [need, List.inits_append, List.findIdx_append]
  exact if_pos (need_lt h)

/-- What only one pattern more binds needs all of them. -/
theorem need_snoc (h : ¬atom.BoundBy patterns) {pattern : Triple}
    (hmore : atom.BoundBy (patterns ++ [pattern])) :
    atom.need (patterns ++ [pattern]) = patterns.length + 1 := by
  refine Nat.le_antisymm (by simpa using need_le hmore) ?_
  by_contra hlt
  have hbound := (isLeast_need hmore).1
  rw [Set.mem_ofPred_eq, List.take_append_of_le_length (by omega)] at hbound
  exact h hbound.of_take

end Triple

/-! ### What a body asks for -/

namespace Registry

/-- The atoms of a body in the order they are written, as steps; a test without variables is
no step. -/
def asWritten (r : Registry) (body : List Triple) : List PlanStep :=
  body.filterMap fun atom =>
    if r.isTest atom then if atom.hasVariables then some (.builtin atom) else none
    else some (.pattern atom)

/-- Where a test goes: behind the patterns written before it and those it needs. -/
def place (r : Registry) (body : List Triple) (e : Nat × Triple) : Nat :=
  max e.1 (e.2.need (r.patterns body))

/-- The tests of a body that go behind just `k` patterns, in the order they are written. -/
def testsDue (r : Registry) (body : List Triple) (k : Nat) : List Triple :=
  ((PlanStep.tests (r.asWritten body)).filter (r.place body · == k)).map Prod.snd

/-- The tests of a body that have variables. -/
def openTests (r : Registry) (body : List Triple) : List Triple :=
  body.filter fun atom => r.isTest atom && atom.hasVariables

/-- The tests without variables hold, and patterns bind the variables of the others. -/
structure Plannable (r : Registry) (body : List Triple) : Prop where
  holds : ∀ atom ∈ body, r.isTest atom = true → atom.hasVariables = false → r.holds atom = true
  bound : ∀ atom ∈ body, r.isTest atom = true → ∀ v ∈ atom.vars,
    ∃ pattern ∈ body, r.isTest pattern = false ∧ v ∈ pattern.vars

/-- The patterns of the body in order, and its tests where they go. -/
structure Places (r : Registry) (body : List Triple) (steps : List PlanStep) : Prop where
  patterns : steps.filterMap PlanStep.pattern? = r.patterns body
  tests : ∀ k, PlanStep.testsAt k steps = r.testsDue body k

variable (r : Registry) {atoms : List Triple} {atom : Triple}

theorem asWritten_append (as bs : List Triple) :
    r.asWritten (as ++ bs) = r.asWritten as ++ r.asWritten bs := List.filterMap_append

theorem patterns_asWritten (body : List Triple) :
    (r.asWritten body).filterMap PlanStep.pattern? = r.patterns body := by
  rw [asWritten, patterns, List.filterMap_filterMap, ← List.filterMap_eq_filter]
  refine List.filterMap_congr fun atom _ => ?_
  cases htest : r.isTest atom <;> cases atom.hasVariables <;> simp [Option.guard, htest]

theorem builtins_asWritten (body : List Triple) :
    (r.asWritten body).filterMap PlanStep.builtin? = r.openTests body := by
  rw [asWritten, openTests, List.filterMap_filterMap, ← List.filterMap_eq_filter]
  refine List.filterMap_congr fun atom _ => ?_
  cases htest : r.isTest atom <;> cases hvars : atom.hasVariables <;>
    simp [Option.guard, htest, hvars]

theorem openTests_append (as bs : List Triple) :
    r.openTests (as ++ bs) = r.openTests as ++ r.openTests bs := List.filter_append ..

theorem tests_snoc_open (htest : r.isTest atom = true) (hvars : atom.hasVariables = true)
    (atoms : List Triple) : PlanStep.tests (r.asWritten (atoms ++ [atom])) =
      PlanStep.tests (r.asWritten atoms) ++ [((r.patterns atoms).length, atom)] := by
  rw [asWritten_append, PlanStep.tests_append, patterns_asWritten]
  simp [asWritten, htest, hvars, PlanStep.tests]

/-- Patterns and decided tests leave the tests before them as they are. -/
theorem tests_snoc (hatom : r.openTests [atom] = []) (atoms : List Triple) :
    PlanStep.tests (r.asWritten (atoms ++ [atom])) = PlanStep.tests (r.asWritten atoms) := by
  rw [asWritten_append, PlanStep.tests_append]
  cases htest : r.isTest atom <;> cases hvars : atom.hasVariables <;>
    simp_all [asWritten, PlanStep.tests, openTests]

theorem place_snoc_test (htest : r.isTest atom = true) (atoms : List Triple) :
    r.place (atoms ++ [atom]) = r.place atoms := by
  funext e
  rw [place, place, patterns_snoc_test htest]

/-- A test is written behind no more than all patterns. -/
theorem tests_asWritten_le {body : List Triple} {e : Nat × Triple}
    (he : e ∈ PlanStep.tests (r.asWritten body)) : e.1 ≤ (r.patterns body).length := by
  rw [← patterns_asWritten]
  exact PlanStep.tests_le _ e he

/-- What is bound goes behind patterns that are there. -/
theorem place_le {body : List Triple} {e : Nat × Triple}
    (he : e ∈ PlanStep.tests (r.asWritten body)) (hbound : e.2.BoundBy (r.patterns body)) :
    r.place body e ≤ (r.patterns body).length :=
  Nat.max_le.mpr ⟨r.tests_asWritten_le he, Triple.need_le hbound⟩

end Registry

/-- Steps so far for the atoms read so far: what is bound stands where it goes, what is not
waits. -/
structure Planning.Arranged (r : Registry) (p : Planning) (atoms : List Triple) : Prop where
  patterns : p.steps.filterMap PlanStep.pattern? = r.patterns atoms
  bound : p.bound = r.boundVars atoms
  waiting : p.waiting = (r.openTests atoms).filter fun t => !decide (t.BoundBy (r.patterns atoms))
  tests : ∀ k, PlanStep.testsAt k p.steps =
    ((PlanStep.tests (r.asWritten atoms)).filter fun e =>
      decide (e.2.BoundBy (r.patterns atoms)) && r.place atoms e == k).map Prod.snd

namespace Planning.Arranged
variable {r : Registry} {p p' : Planning} {atoms : List Triple} {atom : Triple}

theorem nil (r : Registry) : Arranged r {} [] where
  patterns := rfl
  bound := rfl
  waiting := rfl
  tests _ := rfl

theorem isReady_boundVars (atoms : List Triple) :
    isReady (r.boundVars atoms) = fun t => decide (t.BoundBy (r.patterns atoms)) := by
  funext t
  rw [Bool.eq_iff_iff, isReady_iff, decide_eq_true_iff]
  rfl

theorem bound_test (h : Arranged r p atoms) (htest : r.isTest atom = true) :
    p.bound = r.boundVars (atoms ++ [atom]) := by
  rw [h.bound, Registry.boundVars, Registry.boundVars, Registry.patterns_snoc_test htest]

theorem decided (h : Arranged r p atoms) (htest : r.isTest atom = true)
    (hground : atom.hasVariables = false) : Arranged r p (atoms ++ [atom]) := by
  have hpatterns := Registry.patterns_snoc_test htest atoms
  have hopen : r.openTests [atom] = [] := by simp [Registry.openTests, hground]
  refine ⟨h.patterns.trans hpatterns.symm, h.bound_test htest, ?_, fun k => ?_⟩
  · rw [hpatterns, Registry.openTests_append, hopen, List.append_nil]
    exact h.waiting
  · rw [hpatterns, r.place_snoc_test htest, r.tests_snoc hopen]
    exact h.tests k

/-- A test of bound variables goes to the end. -/
theorem tested (h : Arranged r p atoms) (htest : r.isTest atom = true)
    (hvars : atom.hasVariables = true) (hready : isReady p.bound atom = true) :
    Arranged r { p with steps := p.steps ++ [.builtin atom] } (atoms ++ [atom]) := by
  have hpatterns := Registry.patterns_snoc_test htest atoms
  have hopen : r.openTests [atom] = [atom] := by simp [Registry.openTests, htest, hvars]
  have hbound : atom.BoundBy (r.patterns atoms) := by
    rw [h.bound, isReady_boundVars] at hready
    exact of_decide_eq_true hready
  refine ⟨?_, h.bound_test htest, ?_, fun k => ?_⟩
  · rw [List.filterMap_append, h.patterns, hpatterns]
    simp
  · rw [hpatterns, Registry.openTests_append, hopen, List.filter_append, ← h.waiting]
    simp [hbound]
  · have hplace : r.place atoms ((r.patterns atoms).length, atom) = (r.patterns atoms).length :=
      Nat.max_eq_left (Triple.need_le hbound)
    rw [hpatterns, r.place_snoc_test htest, r.tests_snoc_open htest hvars, List.filter_append,
      List.map_append, ← h.tests k, PlanStep.testsAt_append_builtin, h.patterns]
    congr 1
    split
    · rename_i hk
      rw [← hk]
      simp [hbound, hplace]
    · rename_i hk
      simp [hplace, hk]

theorem postponed (h : Arranged r p atoms) (htest : r.isTest atom = true)
    (hvars : atom.hasVariables = true) (hready : isReady p.bound atom = false) :
    Arranged r { p with waiting := p.waiting ++ [atom] } (atoms ++ [atom]) := by
  have hpatterns := Registry.patterns_snoc_test htest atoms
  have hopen : r.openTests [atom] = [atom] := by simp [Registry.openTests, htest, hvars]
  have hbound : ¬atom.BoundBy (r.patterns atoms) := by
    rw [h.bound, isReady_boundVars] at hready
    exact of_decide_eq_false hready
  refine ⟨h.patterns.trans hpatterns.symm, h.bound_test htest, ?_, fun k => ?_⟩
  · rw [hpatterns, Registry.openTests_append, hopen, List.filter_append, ← h.waiting]
    simp [hbound]
  · rw [hpatterns, r.place_snoc_test htest, r.tests_snoc_open htest hvars, List.filter_append,
      List.map_append, ← h.tests k]
    simp [hbound]

/-- What was bound stays where it is, what the new pattern binds goes right behind it. -/
theorem place_snoc_pattern (hatom : r.isTest atom = false) {e : Nat × Triple}
    (he : e ∈ PlanStep.tests (r.asWritten atoms)) (k : Nat) :
    (e.2.BoundBy (r.patterns (atoms ++ [atom])) ∧ r.place (atoms ++ [atom]) e = k) ↔
      if k = (r.patterns atoms).length + 1 then
        e.2.BoundBy (r.patterns (atoms ++ [atom])) ∧ ¬e.2.BoundBy (r.patterns atoms)
      else e.2.BoundBy (r.patterns atoms) ∧ r.place atoms e = k := by
  have hle := r.tests_asWritten_le he
  by_cases hold : e.2.BoundBy (r.patterns atoms)
  · have hplace : r.place (atoms ++ [atom]) e = r.place atoms e := by
      rw [Registry.place, Registry.patterns_snoc_pattern hatom, Triple.need_append hold,
        Registry.place]
    have hnew : e.2.BoundBy (r.patterns (atoms ++ [atom])) := by
      rw [Registry.patterns_snoc_pattern hatom]
      exact hold.append _
    have hstays := r.place_le he hold
    rw [hplace]
    split
    · simp only [hold, hnew, true_and, not_true_eq_false, and_false, iff_false]
      omega
    · simp only [hold, hnew, true_and]
  · by_cases hnew : e.2.BoundBy (r.patterns (atoms ++ [atom]))
    · have hplace : r.place (atoms ++ [atom]) e = (r.patterns atoms).length + 1 := by
        rw [Registry.patterns_snoc_pattern hatom] at hnew
        rw [Registry.place, Registry.patterns_snoc_pattern hatom, Triple.need_snoc hold hnew]
        exact Nat.max_eq_right (Nat.le_succ_of_le hle)
      simp [hold, hnew, hplace, eq_comm]
    · simp [hold, hnew]

theorem addPattern (h : Arranged r p atoms) (hatom : r.isTest atom = false) :
    Arranged r (p.addPattern atom) (atoms ++ [atom]) := by
  have hpatterns := Registry.patterns_snoc_pattern hatom atoms
  have hopen : r.openTests [atom] = [] := by simp [Registry.openTests, hatom]
  have hbound : p.bound ++ atom.vars = r.boundVars (atoms ++ [atom]) := by
    rw [h.bound, Registry.boundVars, Registry.boundVars, hpatterns, List.flatMap_append]
    simp
  rw [addPattern_eq, hbound, isReady_boundVars]
  refine ⟨?_, rfl, ?_, fun k => ?_⟩
  · rw [List.filterMap_append, h.patterns, hpatterns, List.filterMap_cons]
    simp
  · show p.waiting.filter _ = _
    rw [h.waiting, Registry.openTests_append, hopen, List.append_nil, List.filter_filter]
    refine List.filter_congr fun t _ => ?_
    rw [hpatterns]
    by_cases hold : t.BoundBy (r.patterns atoms)
    · simp [hold, hold.append]
    · simp [hold]
  · have hready : (p.waiting.filter fun t => decide (t.BoundBy (r.patterns (atoms ++ [atom])))) =
        ((PlanStep.tests (r.asWritten atoms)).filter fun e =>
          decide (e.2.BoundBy (r.patterns (atoms ++ [atom]))) &&
            !decide (e.2.BoundBy (r.patterns atoms))).map Prod.snd := by
      rw [h.waiting, ← Registry.builtins_asWritten, ← PlanStep.map_snd_tests, List.filter_filter,
        List.filter_map]
      rfl
    rw [PlanStep.testsAt_append_pattern, h.patterns, hready, h.tests k, r.tests_snoc hopen]
    -- what waited comes to the new place, what was placed is at the others
    split <;> rename_i hk <;> refine congrArg _ (List.filter_congr fun e he => ?_) <;>
      rw [Bool.eq_iff_iff] <;> simpa [hk] using (place_snoc_pattern hatom he k).symm

theorem addAtom (h : Arranged r p atoms) (hp : p.addAtom r atom = .ok p') :
    Arranged r p' (atoms ++ [atom]) := by
  cases addAtom_ok hp with
  | pattern hatom => exact h.addPattern hatom
  | decided htest hground _ => exact h.decided htest hground
  | tested htest hvars hready => exact h.tested htest hvars hready
  | postponed htest hvars hready => exact h.postponed htest hvars hready

theorem of_foldlM {body : List Triple} (hp : body.foldlM (Planning.addAtom r) {} = .ok p) :
    Arranged r p body :=
  foldlM_addAtom (C := Arranged r) (fun h => h.addAtom) (nil r) hp

end Planning.Arranged

/-- Atoms are added unless a test without variables fails. -/
theorem Planning.foldlM_addAtom_isOk (r : Registry) (p : Planning) (body : List Triple) :
    (∃ p', body.foldlM (Planning.addAtom r) p = .ok p') ↔
      ∀ atom ∈ body, r.isTest atom = true → atom.hasVariables = false → r.holds atom = true := by
  have hadd : ∀ (p : Planning) (atom : Triple), (∃ p', p.addAtom r atom = .ok p') ↔
      (r.isTest atom = true → atom.hasVariables = false → r.holds atom = true) := by
    intro p atom
    rw [addAtom_eq]
    cases r.isTest atom <;> cases atom.hasVariables <;> cases r.holds atom <;> simp
  induction body generalizing p with
  | nil => exact iff_of_true ⟨p, rfl⟩ (by simp)
  | cons atom rest ih =>
    rw [List.foldlM_cons, List.forall_mem_cons, ← hadd p]
    cases hfirst : p.addAtom r atom with
    | error fault => exact iff_of_false (by rintro ⟨_, ⟨⟩⟩) (by rintro ⟨⟨_, ⟨⟩⟩, _⟩)
    | ok q => exact (ih q).trans (by simp)

/-- The first test without variables that fails is reported. -/
theorem Planning.foldlM_addAtom_error {r : Registry} {p : Planning} {body : List Triple}
    {fault : RuleFault} (h : body.foldlM (Planning.addAtom r) p = .error fault) :
    ∃ atom ∈ body, r.isTest atom = true ∧ atom.hasVariables = false ∧ r.holds atom = false ∧
      fault = .builtinNeverHolds atom := by
  induction body generalizing p with
  | nil => cases h
  | cons atom rest ih =>
    rw [List.foldlM_cons] at h
    cases hfirst : p.addAtom r atom with
    | ok q =>
      rw [hfirst] at h
      obtain ⟨other, hother, hfails⟩ := ih h
      exact ⟨other, List.mem_cons_of_mem _ hother, hfails⟩
    | error found =>
      rw [hfirst] at h
      cases h
      refine ⟨atom, List.mem_cons_self, ?_⟩
      rw [addAtom_eq] at hfirst
      cases htest : r.isTest atom <;> cases hvars : atom.hasVariables <;>
        cases hholds : r.holds atom <;> simp [htest, hvars, hholds] at hfirst
      exact ⟨rfl, rfl, rfl, hfirst.symm⟩

section
variable {r : Registry} {body : List Triple} {steps : List PlanStep}

/-- Every test that is open is bound. -/
theorem Registry.forall_openTests_bound :
    (∀ t ∈ r.openTests body, t.BoundBy (r.patterns body)) ↔
      ∀ atom ∈ body, r.isTest atom = true → ∀ v ∈ atom.vars,
        ∃ pattern ∈ body, r.isTest pattern = false ∧ v ∈ pattern.vars := by
  simp only [openTests, patterns, List.mem_filter, Bool.and_eq_true, Triple.BoundBy,
    List.mem_flatMap, Bool.not_eq_true', and_assoc]
  constructor
  · intro h atom hatom htest v hv
    exact h atom ⟨hatom, htest, Triple.hasVariables_iff.mpr ⟨v, hv⟩⟩ v hv
  · rintro h t ⟨ht, htest, -⟩
    exact h t ht htest

/-- A body has a plan exactly if its tests without variables hold and its patterns bind the
variables of the others. -/
theorem exists_plan_iff : (∃ steps, plan r body = .ok steps) ↔ r.Plannable body := by
  have hwaiting : ∀ p, body.foldlM (Planning.addAtom r) {} = .ok p →
      (p.waiting = [] ↔ ∀ t ∈ r.openTests body, t.BoundBy (r.patterns body)) := by
    intro p hp
    rw [(Planning.Arranged.of_foldlM hp).waiting, List.filter_eq_nil_iff]
    simp
  constructor
  · rintro ⟨steps, h⟩
    obtain ⟨bound, hp⟩ := plan_ok_iff.mp h
    refine ⟨(Planning.foldlM_addAtom_isOk r {} body).mp ⟨_, hp⟩, ?_⟩
    exact Registry.forall_openTests_bound.mp ((hwaiting _ hp).mp rfl)
  · intro h
    obtain ⟨⟨steps, bound, waiting⟩, hp⟩ := (Planning.foldlM_addAtom_isOk r {} body).mpr h.holds
    obtain rfl : waiting = [] := (hwaiting _ hp).mpr (Registry.forall_openTests_bound.mpr h.bound)
    exact ⟨steps, plan_ok_iff.mpr ⟨bound, hp⟩⟩

/-- What is wrong with a body, and with which of its tests. -/
inductive Registry.Faulty (r : Registry) (body : List Triple) : RuleFault → Prop where
  | neverHolds {atom : Triple} : atom ∈ body → r.isTest atom = true → atom.hasVariables = false →
      r.holds atom = false → Faulty r body (.builtinNeverHolds atom)
  | unbound {atom : Triple} : atom ∈ body → r.isTest atom = true →
      ¬atom.BoundBy (r.patterns body) → Faulty r body (.builtinUnbound atom)

/-- A body without a plan is faulty as it is reported. -/
theorem faulty_of_plan {fault : RuleFault} (h : plan r body = .error fault) :
    r.Faulty body fault := by
  unfold plan at h
  split at h
  · rename_i found hp
    cases h
    obtain ⟨atom, hatom, htest, hground, hfails, rfl⟩ := Planning.foldlM_addAtom_error hp
    exact .neverHolds hatom htest hground hfails
  · rename_i p hp
    split at h
    · rename_i atom _ hwaiting
      cases h
      have hatom : atom ∈ p.waiting := hwaiting ▸ List.mem_cons_self
      rw [(Planning.Arranged.of_foldlM hp).waiting, List.mem_filter] at hatom
      obtain ⟨hopen, hunbound⟩ := hatom
      obtain ⟨hbody, htest⟩ := List.mem_filter.mp hopen
      exact .unbound hbody (Bool.and_eq_true_iff.mp htest).1 (by simpa using hunbound)
    · cases h

/-- A plan has the patterns in order, and each test where it goes. -/
theorem places_of_plan (h : plan r body = .ok steps) : r.Places body steps := by
  obtain ⟨bound, hp⟩ := plan_ok_iff.mp h
  have harranged := Planning.Arranged.of_foldlM hp
  refine ⟨harranged.patterns, fun k => ?_⟩
  have hbound := Registry.forall_openTests_bound.mpr (exists_plan_iff.mp ⟨steps, h⟩).bound
  have hopen : ∀ e ∈ PlanStep.tests (r.asWritten body), e.2.BoundBy (r.patterns body) := by
    intro e he
    refine hbound _ ?_
    rw [← r.builtins_asWritten, ← PlanStep.map_snd_tests]
    exact List.mem_map_of_mem he
  refine (harranged.tests k).trans (congrArg _ (List.filter_congr fun e he => ?_))
  rw [decide_eq_true (hopen e he), Bool.true_and]

/-- Each open test is planned as often as it is written. -/
theorem Registry.Places.perm (h : r.Places body steps) :
    (steps.filterMap PlanStep.builtin?).Perm (r.openTests body) := by
  rw [← PlanStep.map_snd_tests, ← r.builtins_asWritten, ← PlanStep.map_snd_tests]
  exact map_perm_of_filter h.tests

theorem Registry.Places.unique (h : r.Places body steps) {other : List PlanStep}
    (hother : r.Places body other) : steps = other :=
  PlanStep.eq_of_testsAt (h.patterns.trans hother.patterns.symm) fun k =>
    (h.tests k).trans (hother.tests k).symm

/-- The places determine the plan. -/
theorem plan_eq_ok_iff : plan r body = .ok steps ↔ r.Plannable body ∧ r.Places body steps := by
  refine ⟨fun h => ⟨exists_plan_iff.mp ⟨steps, h⟩, places_of_plan h⟩, fun ⟨hbody, hplaces⟩ => ?_⟩
  obtain ⟨found, hfound⟩ := exists_plan_iff.mpr hbody
  rw [hfound, (places_of_plan hfound).unique hplaces]

/-- A test stands behind as many patterns as its place says. -/
theorem Registry.Places.split (h : r.Places body steps) {before after : List PlanStep}
    {atom : Triple} (hsteps : steps = before ++ .builtin atom :: after) :
    ∃ m, (m, atom) ∈ PlanStep.tests (r.asWritten body) ∧
      (before.filterMap PlanStep.pattern?).length = max m (atom.need (r.patterns body)) := by
  have hin : atom ∈ r.testsDue body (before.filterMap PlanStep.pattern?).length := by
    rw [← h.tests, hsteps, PlanStep.testsAt]
    refine List.mem_map.mpr ⟨_, List.mem_filter.mpr ⟨PlanStep.mem_tests_of_split .., ?_⟩, rfl⟩
    exact beq_self_eq_true _
  obtain ⟨⟨m, t⟩, he, rfl⟩ := List.mem_map.mp hin
  obtain ⟨hwritten, hplace⟩ := List.mem_filter.mp he
  exact ⟨m, hwritten, (beq_iff_eq.mp hplace).symm⟩

/-- **A plan is found for the plannable bodies.** It has their patterns in order and each open
test once, behind the patterns written before it and as many as bind it, but no more. -/
theorem plan_places (r : Registry) (body : List Triple) :
    ((∃ steps, plan r body = .ok steps) ↔ r.Plannable body) ∧
    ∀ steps, plan r body = .ok steps →
      steps.filterMap PlanStep.pattern? = r.patterns body ∧
      (steps.filterMap PlanStep.builtin?).Perm (r.openTests body) ∧
      (∀ k, PlanStep.testsAt k steps = r.testsDue body k) ∧
      (∀ atom ∈ r.openTests body, IsLeast {k | atom.BoundBy ((r.patterns body).take k)}
        (atom.need (r.patterns body))) ∧
      ∀ before atom after, steps = before ++ .builtin atom :: after →
        atom.BoundBy (before.filterMap PlanStep.pattern?) ∧
        ∃ m, (m, atom) ∈ PlanStep.tests (r.asWritten body) ∧
          (before.filterMap PlanStep.pattern?).length = max m (atom.need (r.patterns body)) := by
  refine ⟨exists_plan_iff, fun steps h => ?_⟩
  have hplaces := places_of_plan h
  have hbound := (exists_plan_iff.mp ⟨steps, h⟩).bound
  refine ⟨hplaces.patterns, hplaces.perm, hplaces.tests, fun atom hatom => ?_, ?_⟩
  · exact Triple.isLeast_need (Registry.forall_openTests_bound.mpr hbound atom hatom)
  · rintro before atom after rfl
    refine ⟨?_, hplaces.split rfl⟩
    have hevaluable := evaluable_of_plan h
    rw [List.append_cons] at hevaluable
    obtain ⟨hbefore, -, -, hvars⟩ := hevaluable.of_append.of_snoc
    rw [hbefore.boundVars_eq] at hvars
    exact hvars

/-- The inequality of terms as the only built-in. -/
def inequality : Registry := .ofList [("differs", fun a b => a ≠ b)]

/-- A chain of two patterns among tests, one of them without variables. -/
def chainOfTests : List Triple :=
  let differs : Term := .iri "differs"
  [⟨.var ⟨"x"⟩, differs, .var ⟨"z"⟩⟩, ⟨.var ⟨"x"⟩, .iri "p", .var ⟨"y"⟩⟩,
    ⟨.iri "p", differs, .iri "q"⟩, ⟨.var ⟨"y"⟩, .iri "q", .var ⟨"z"⟩⟩,
    ⟨.var ⟨"y"⟩, differs, .var ⟨"x"⟩⟩, ⟨.var ⟨"x"⟩, differs, .var ⟨"z"⟩⟩]

/-- The first test waits for the second pattern, the last two stay where they are written. -/
theorem plan_places_of_chain : ∃ steps, plan inequality chainOfTests = .ok steps ∧
    steps.filterMap PlanStep.pattern? = [chainOfTests[1], chainOfTests[3]] ∧
    PlanStep.testsAt 2 steps = [chainOfTests[0], chainOfTests[4], chainOfTests[5]] := by
  obtain ⟨hplannable, hplaces⟩ := plan_places inequality chainOfTests
  obtain ⟨steps, h⟩ := hplannable.mpr ⟨by decide +kernel, by decide +kernel⟩
  obtain ⟨hpatterns, -, htests, -⟩ := hplaces steps h
  exact ⟨steps, h, hpatterns.trans (by decide +kernel), (htests 2).trans (by decide +kernel)⟩

end

end HornReasoner
