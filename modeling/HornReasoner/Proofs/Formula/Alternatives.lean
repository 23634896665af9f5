import HornReasoner.Proofs.Formula.Meaning
import Mathlib.Algebra.BigOperators.Group.List.Basic

/-! How many alternatives a formula has.

A formula has alternatives unless an implication stands in it, and then they are its disjunctive
normal form. Conjunctions multiply the numbers of alternatives of their parts and disjunctions add
them, so there may be very many. With one disjunction at most, those directly inside another counted
with it, all factors but one are one: there are at most as many alternatives as parts of
disjunctions, and one more (`alternatives_exact`). So the rules of a part of a clause are no more
than that, whatever its body (`Part.length_candidates_le`). -/
namespace HornReasoner

namespace Formula

/-! ### Implications -/

/-- The formula is a part of another one at some depth, or that formula itself. -/
inductive Subformula (f : Formula) : Formula → Prop where
  | refl : Subformula f f
  | conj {part : Formula} {parts : List Formula} :
      part ∈ parts → Subformula f part → Subformula f (conj parts)
  | disj {part : Formula} {parts : List Formula} :
      part ∈ parts → Subformula f part → Subformula f (disj parts)
  | exist {inner : Formula} (vars : List Variable) :
      Subformula f inner → Subformula f (exist vars inner)
  | body {body : Formula} (head : Formula) : Subformula f body → Subformula f (implies body head)
  | head {head : Formula} (body : Formula) : Subformula f head → Subformula f (implies body head)

/-- Parts fail with what one of them fails with. -/
theorem alternativesOf_eq_error {parts : List Formula} {g : Formula}
    (h : alternativesOf parts = .error g) : ∃ part ∈ parts, part.alternatives = .error g := by
  induction parts with
  | nil => cases h
  | cons part rest ih =>
    rw [alternativesOf] at h
    cases hpart : part.alternatives with
    | error f =>
      rw [hpart] at h
      cases h
      exact ⟨part, List.mem_cons_self .., hpart⟩
    | ok options =>
      cases hrest : alternativesOf rest with
      | error f =>
        rw [hpart, hrest] at h
        cases h
        obtain ⟨other, hother, herror⟩ := ih hrest
        exact ⟨other, List.mem_cons_of_mem _ hother, herror⟩
      | ok lists =>
        rw [hpart, hrest] at h
        cases h

/-- Parts of which one fails, fail. -/
theorem exists_alternativesOf_error {part : Formula} {parts : List Formula} (hpart : part ∈ parts)
    (h : ∃ g, part.alternatives = .error g) : ∃ g, alternativesOf parts = .error g := by
  obtain ⟨g, hg⟩ := h
  induction parts with
  | nil => cases hpart
  | cons first rest ih =>
    rw [alternativesOf]
    cases hfirst : first.alternatives with
    | error f => exact ⟨f, rfl⟩
    | ok options =>
      have hrest : part ∈ rest := by
        rcases List.mem_cons.mp hpart with rfl | hrest
        · cases hg.symm.trans hfirst
        · exact hrest
      obtain ⟨f, hf⟩ := ih hrest
      exact ⟨f, by rw [hf]; rfl⟩

/-- What is put together from parts fails with what one of them fails with. -/
theorem exists_error_of_map {α : Type} {parts : List Formula} {make : List (List (List Triple)) → α}
    {g : Formula} (h : (alternativesOf parts).map make = .error g) :
    ∃ part ∈ parts, part.alternatives = .error g := by
  cases hparts : alternativesOf parts with
  | ok lists =>
    rw [hparts] at h
    cases h
  | error f =>
    rw [hparts] at h
    cases h
    exact alternativesOf_eq_error hparts

/-- The formula that is reported is an implication that stands there. -/
theorem alternatives_eq_error {f g : Formula} (h : f.alternatives = .error g) :
    (∃ body head, g = implies body head) ∧ Subformula g f := by
  induction f with
  | atom t => cases h
  | conj parts ih =>
    rw [alternatives] at h
    obtain ⟨part, hpart, herror⟩ := exists_error_of_map h
    exact (ih part hpart herror).imp_right (.conj hpart)
  | disj parts ih =>
    rw [alternatives] at h
    obtain ⟨part, hpart, herror⟩ := exists_error_of_map h
    exact (ih part hpart herror).imp_right (.disj hpart)
  | exist vars inner ih => exact (ih h).imp_right (.exist vars)
  | implies body head _ _ =>
    cases h
    exact ⟨⟨body, head, rfl⟩, .refl⟩

/-- An implication stands in the way, at whatever depth. -/
theorem Subformula.exists_error {body head f : Formula} (h : Subformula (implies body head) f) :
    ∃ g, f.alternatives = .error g := by
  induction h with
  | refl => exact ⟨_, rfl⟩
  | conj hpart _ ih | disj hpart _ ih =>
    obtain ⟨g, hg⟩ := exists_alternativesOf_error hpart ih
    exact ⟨g, by rw [alternatives, hg]; rfl⟩
  | exist vars _ ih => exact ih
  | body head _ _ | head body _ _ => exact ⟨_, rfl⟩

/-! ### The number of alternatives -/

mutual

/-- The number of parts that the disjunctions of a formula have together. -/
def disjuncts : Formula → Nat
  | atom _ => 0
  | conj parts => disjunctsOf parts
  | disj parts => parts.length + disjunctsOf parts
  | exist _ inner => inner.disjuncts
  | implies body head => body.disjuncts + head.disjuncts

def disjunctsOf : List Formula → Nat
  | [] => 0
  | part :: rest => part.disjuncts + disjunctsOf rest

end

theorem length_pairs (first second : List (List Triple)) :
    (pairs first second).length = first.length * second.length := by
  simp [pairs, List.length_flatMap]

theorem length_foldl_pairs (lists : List (List (List Triple))) (first : List (List Triple)) :
    (lists.foldl pairs first).length = first.length * (lists.map List.length).prod := by
  induction lists generalizing first with
  | nil => simp
  | cons options rest ih =>
    rw [List.foldl_cons, ih, length_pairs, List.map_cons, List.prod_cons, Nat.mul_assoc]

/-- Parts without disjunctions have one alternative each. -/
theorem prod_length_of_countAll {parts : List Formula} {lists : List (List (List Triple))}
    (hlists : List.Forall₂ (fun part options => part.alternatives = .ok options) parts lists)
    (hcount : countAll false parts = 0) (hone : ∀ part ∈ parts, ∀ options,
      part.alternatives = .ok options → part.countDisjunctions false = 0 → options.length = 1) :
    (lists.map List.length).prod = 1 := by
  induction hlists with
  | nil => rfl
  | cons hpart _ ih =>
    obtain ⟨hfirst, hrest⟩ := List.forall_mem_cons.mp hone
    rw [countAll, Nat.add_eq_zero_iff] at hcount
    rw [List.map_cons, List.prod_cons, hfirst _ hpart hcount.1, ih hcount.2 hrest]

/-- Without a disjunction there is one alternative. -/
theorem length_alternatives_of_plain {f : Formula} {options : List (List Triple)}
    (h : f.alternatives = .ok options) (hcount : f.countDisjunctions false = 0) :
    options.length = 1 := by
  induction f generalizing options with
  | atom t =>
    cases h
    rfl
  | conj parts ih =>
    obtain ⟨lists, hlists, rfl⟩ := alternatives_conj h
    rw [countDisjunctions] at hcount
    rw [length_foldl_pairs, prod_length_of_countAll hlists hcount fun part hpart _ =>
      ih part hpart]
    rfl
  | disj parts _ =>
    rw [countDisjunctions, if_neg Bool.false_ne_true] at hcount
    omega
  | exist vars inner ih => exact ih h hcount
  | implies body head _ _ => cases h

/-- Directly inside a disjunction, and with no other one, a formula has as many alternatives as its
disjunctions have parts, or one. -/
theorem length_alternatives_of_merged {f : Formula} {options : List (List Triple)}
    (h : f.alternatives = .ok options) (hcount : f.countDisjunctions true = 0) :
    options.length ≤ 1 + f.disjuncts := by
  induction f generalizing options with
  | atom t =>
    cases h
    exact Nat.le_add_right 1 _
  | conj parts _ =>
    rw [length_alternatives_of_plain h hcount]
    exact Nat.le_add_right 1 _
  | disj parts ih =>
    obtain ⟨lists, hlists, rfl⟩ := alternatives_disj h
    rw [countDisjunctions, if_pos rfl, Nat.zero_add] at hcount
    suffices hsum : lists.flatten.length ≤ (disj parts).disjuncts by omega
    rw [disjuncts]
    clear h
    induction hlists with
    | nil => rfl
    | cons hpart _ ihl =>
      obtain ⟨ihp, ihr⟩ := List.forall_mem_cons.mp ih
      rw [countAll, Nat.add_eq_zero_iff] at hcount
      have hfirst := ihp hpart hcount.1
      have hrest := ihl ihr hcount.2
      rw [List.flatten_cons, List.length_append, List.length_cons, disjunctsOf]
      omega
  | exist vars inner ih => exact ih h hcount
  | implies body head _ _ => cases h

/-- **With one disjunction at most there are no more alternatives than its parts**, and one. -/
theorem length_alternatives_le {f : Formula} {options : List (List Triple)}
    (h : f.alternatives = .ok options) (hcount : f.countDisjunctions false ≤ 1) :
    options.length ≤ 1 + f.disjuncts := by
  induction f generalizing options with
  | atom t =>
    cases h
    exact Nat.le_add_right 1 _
  | conj parts ih =>
    obtain ⟨lists, hlists, rfl⟩ := alternatives_conj h
    rw [countDisjunctions] at hcount
    rw [length_foldl_pairs, List.length_singleton, Nat.one_mul, disjuncts]
    clear h
    induction hlists with
    | nil => exact Nat.le_add_right 1 _
    | @cons part options rest lists hpart hlists ihl =>
      obtain ⟨ihp, ihr⟩ := List.forall_mem_cons.mp ih
      rw [countAll] at hcount
      rw [List.map_cons, List.prod_cons, disjunctsOf]
      -- either the first part has no disjunction or all the others have none
      by_cases hplain : part.countDisjunctions false = 0
      · have hrest := ihl ihr (by omega)
        rw [length_alternatives_of_plain hpart hplain]
        omega
      · have hfirst := ihp hpart (by omega)
        rw [prod_length_of_countAll hlists (by omega) fun _ _ _ => length_alternatives_of_plain]
        omega
  | disj parts _ =>
    -- counted inside another disjunction it is one less
    refine length_alternatives_of_merged h ?_
    rw [countDisjunctions] at hcount ⊢
    simp only [Bool.false_eq_true, if_false, if_true] at hcount ⊢
    omega
  | exist vars inner ih => exact ih h hcount
  | implies body head _ _ => cases h

/-! ### On the way -/

theorem countDisjunctions_le_countAll {insideDisj : Bool} {part : Formula} {parts : List Formula}
    (h : part ∈ parts) : part.countDisjunctions insideDisj ≤ countAll insideDisj parts := by
  induction parts with
  | nil => cases h
  | cons first rest ih =>
    rw [countAll]
    rcases List.mem_cons.mp h with rfl | h
    · exact Nat.le_add_right ..
    · exact Nat.le_add_left_of_le (ih h)

theorem disjuncts_le_disjunctsOf {part : Formula} {parts : List Formula} (h : part ∈ parts) :
    part.disjuncts ≤ disjunctsOf parts := by
  induction parts with
  | nil => cases h
  | cons first rest ih =>
    rw [disjunctsOf]
    rcases List.mem_cons.mp h with rfl | h
    · exact Nat.le_add_right ..
    · exact Nat.le_add_left_of_le (ih h)

/-- Outside a disjunction at most one more is counted. -/
theorem countDisjunctions_le_succ (f : Formula) :
    f.countDisjunctions false ≤ f.countDisjunctions true + 1 := by
  induction f with
  | atom t => exact Nat.zero_le _
  | conj parts _ => exact Nat.le_succ _
  | disj parts _ =>
    rw [countDisjunctions, countDisjunctions, if_neg Bool.false_ne_true, if_pos rfl]
    omega
  | exist vars inner ih => exact ih
  | implies body head _ _ => exact Nat.le_succ _

/-- What passes the check has only parts that do. -/
theorem Subformula.countDisjunctions_le {f g : Formula} (h : Subformula g f)
    (hcount : f.countDisjunctions false ≤ 1) : g.countDisjunctions false ≤ 1 := by
  induction h with
  | refl => exact hcount
  | conj hpart _ ih =>
    rw [countDisjunctions] at hcount
    exact ih ((countDisjunctions_le_countAll hpart).trans hcount)
  | @disj part parts hpart _ ih =>
    rw [countDisjunctions, if_neg Bool.false_ne_true] at hcount
    have hinside : part.countDisjunctions true ≤ countAll true parts :=
      countDisjunctions_le_countAll hpart
    have houtside := part.countDisjunctions_le_succ
    exact ih (by omega)
  | exist vars _ ih => exact ih hcount
  | body head _ ih | head body _ ih =>
    rw [countDisjunctions] at hcount
    exact ih (by omega)

theorem Subformula.disjuncts_le {f g : Formula} (h : Subformula g f) :
    g.disjuncts ≤ f.disjuncts := by
  induction h with
  | refl => exact Nat.le_refl _
  | conj hpart _ ih =>
    rw [disjuncts]
    exact ih.trans (disjuncts_le_disjunctsOf hpart)
  | disj hpart _ ih =>
    rw [disjuncts]
    exact Nat.le_add_left_of_le (ih.trans (disjuncts_le_disjunctsOf hpart))
  | exist vars _ ih => exact ih
  | body head _ ih =>
    rw [disjuncts]
    exact Nat.le_add_right_of_le ih
  | head body _ ih =>
    rw [disjuncts]
    exact Nat.le_add_left_of_le ih

end Formula

/-- The check before the expansion keeps the rules of a part few, whatever the part. -/
theorem Clause.Part.length_candidates_le (truth : Bool) (head : List Triple) (body : Formula) :
    ((Part.rule head body).candidates truth).length ≤ 1 + body.disjuncts := by
  rw [candidates]
  split
  · exact Nat.le_add_right 1 _
  · rename_i hcount
    split
    · exact Nat.le_add_right 1 _
    · exact Nat.le_add_right 1 _
    · rename_i options _ hoptions
      rw [List.length_map]
      exact Formula.length_alternatives_le hoptions (Nat.le_of_not_lt hcount)

namespace Formula

/-- **Alternatives are a disjunctive normal form**, which exists exactly if no implication stands in
the formula. If one disjunction is counted at most, neither the formula nor any part of it has more
alternatives than the disjunctions have parts, and one; so the rules of a part of a clause, which is
checked for that, are no more than these. -/
theorem alternatives_exact (f : Formula) :
    ((∃ g, f.alternatives = .error g) ↔ ∃ body head, Subformula (implies body head) f) ∧
    (∀ options, f.alternatives = .ok options →
      (∀ truth : Triple → Prop, f.Holds truth ↔ ∃ alt ∈ options, ∀ t ∈ alt, truth t) ∧
      (f.countDisjunctions false ≤ 1 → options.length ≤ 1 + f.disjuncts)) ∧
    (f.countDisjunctions false ≤ 1 → ∀ g options, Subformula g f →
      g.alternatives = .ok options → options.length ≤ 1 + f.disjuncts) ∧
    ∀ truth head, ((Clause.Part.rule head f).candidates truth).length ≤ 1 + f.disjuncts := by
  refine ⟨⟨fun ⟨g, hg⟩ => ?_, fun ⟨body, head, h⟩ => h.exists_error⟩, fun options h => ?_, ?_, ?_⟩
  · obtain ⟨⟨body, head, rfl⟩, hstands⟩ := alternatives_eq_error hg
    exact ⟨body, head, hstands⟩
  · exact ⟨fun truth => holds_iff_alternatives h, length_alternatives_le h⟩
  · intro hcount g options hg hoptions
    have hle := length_alternatives_le hoptions (hg.countDisjunctions_le hcount)
    exact hle.trans (Nat.add_le_add_left hg.disjuncts_le 1)
  · exact fun truth head => Clause.Part.length_candidates_le truth head f

/-- A member of `A` and, one disjunction directly inside another, of `B`, `C` or `D`. -/
def layered : Formula :=
  .conj [classAtom (.var ⟨"x"⟩) (.iri "A"), .disj [classAtom (.var ⟨"x"⟩) (.iri "B"),
    .exist [] (.disj [classAtom (.var ⟨"x"⟩) (.iri "C"), classAtom (.var ⟨"x"⟩) (.iri "D")])]]

theorem alternatives_exact_of_layered : layered.countDisjunctions false = 1 ∧
    layered.disjuncts = 4 ∧ ∃ options, layered.alternatives = .ok options ∧ options.length = 3 ∧
      options.length ≤ 1 + layered.disjuncts :=
  ⟨rfl, rfl, _, rfl, rfl, ((alternatives_exact layered).2.1 _ rfl).2 (Nat.le_refl 1)⟩

end Formula

end HornReasoner
