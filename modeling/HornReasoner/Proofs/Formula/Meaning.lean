import HornReasoner.Formula.Normal
import Mathlib.Data.List.Forall2
import Mathlib.Data.Set.Basic

/-! What formulas say.

A formula is read over a truth value for each triple; a quantifier says what its inner
formula says. The alternatives of a formula are its disjunctive normal form
(`holds_iff_alternatives`), and the conjuncts of a formula its conjunctive one. -/
namespace HornReasoner.Formula

/-- Formulas are built from atoms, and lists of formulas from formulas. -/
@[elab_as_elim, induction_eliminator]
theorem induction {motive : Formula → Prop} (atom : ∀ t, motive (atom t))
    (conj : ∀ parts, (∀ part ∈ parts, motive part) → motive (conj parts))
    (disj : ∀ parts, (∀ part ∈ parts, motive part) → motive (disj parts))
    (exist : ∀ vars inner, motive inner → motive (exist vars inner))
    (implies : ∀ body head, motive body → motive head → motive (implies body head)) :
    ∀ f, motive f := by
  intro f
  exact f.rec (motive_2 := fun parts => ∀ part ∈ parts, motive part) atom conj disj exist implies
    (by simp) (fun part rest hpart hrest => by simpa using ⟨hpart, hrest⟩)

variable {truth : Triple → Prop}

/-! ### Truth -/

mutual

/-- The formula is true. -/
def Holds (truth : Triple → Prop) : Formula → Prop
  | atom t => truth t
  | conj parts => AllHold truth parts
  | disj parts => SomeHolds truth parts
  | exist _ inner => inner.Holds truth
  | implies body head => body.Holds truth → head.Holds truth

def AllHold (truth : Triple → Prop) : List Formula → Prop
  | [] => True
  | part :: rest => part.Holds truth ∧ AllHold truth rest

def SomeHolds (truth : Triple → Prop) : List Formula → Prop
  | [] => False
  | part :: rest => part.Holds truth ∨ SomeHolds truth rest

end

theorem allHold_iff {parts : List Formula} :
    AllHold truth parts ↔ ∀ part ∈ parts, part.Holds truth := by
  induction parts with
  | nil => simp [AllHold]
  | cons part rest ih => simp [AllHold, ih]

theorem someHolds_iff {parts : List Formula} :
    SomeHolds truth parts ↔ ∃ part ∈ parts, part.Holds truth := by
  induction parts with
  | nil => simp [SomeHolds]
  | cons part rest ih => simp [SomeHolds, ih]

@[simp] theorem holds_atom {t : Triple} : (atom t).Holds truth ↔ truth t := by
  simp [Holds]

@[simp] theorem holds_conj {parts : List Formula} :
    (conj parts).Holds truth ↔ ∀ part ∈ parts, part.Holds truth := by
  rw [Holds, allHold_iff]

theorem holds_of_isEmptyConj {f : Formula} (h : f.isEmptyConj = true) : f.Holds truth := by
  unfold isEmptyConj at h
  split at h
  · simp
  · cases h

@[simp] theorem holds_disj {parts : List Formula} :
    (disj parts).Holds truth ↔ ∃ part ∈ parts, part.Holds truth := by
  rw [Holds, someHolds_iff]

@[simp] theorem holds_exist {vars : List Variable} {inner : Formula} :
    (exist vars inner).Holds truth ↔ inner.Holds truth := by
  rw [Holds]

@[simp] theorem holds_implies {body head : Formula} :
    (implies body head).Holds truth ↔ (body.Holds truth → head.Holds truth) := by
  rw [Holds]

@[simp] theorem holds_and {parts : List Formula} :
    (and parts).Holds truth ↔ ∀ part ∈ parts, part.Holds truth := by
  unfold and
  split <;> simp

@[simp] theorem holds_or {parts : List Formula} :
    (or parts).Holds truth ↔ ∃ part ∈ parts, part.Holds truth := by
  unfold or
  split <;> simp

/-! ### Atoms -/

mutual

/-- Every atom of the formula satisfies `p`. -/
def AllAtoms (p : Triple → Prop) : Formula → Prop
  | atom t => p t
  | conj parts => EachAllAtoms p parts
  | disj parts => EachAllAtoms p parts
  | exist _ inner => inner.AllAtoms p
  | implies body head => body.AllAtoms p ∧ head.AllAtoms p

def EachAllAtoms (p : Triple → Prop) : List Formula → Prop
  | [] => True
  | part :: rest => part.AllAtoms p ∧ EachAllAtoms p rest

end

variable {p q : Triple → Prop}

theorem eachAllAtoms_iff {parts : List Formula} :
    EachAllAtoms p parts ↔ ∀ part ∈ parts, part.AllAtoms p := by
  induction parts with
  | nil => simp [EachAllAtoms]
  | cons part rest ih => simp [EachAllAtoms, ih]

@[simp] theorem allAtoms_atom {t : Triple} : (atom t).AllAtoms p ↔ p t := by
  simp [AllAtoms]

@[simp] theorem allAtoms_conj {parts : List Formula} :
    (conj parts).AllAtoms p ↔ ∀ part ∈ parts, part.AllAtoms p := by
  rw [AllAtoms, eachAllAtoms_iff]

@[simp] theorem allAtoms_disj {parts : List Formula} :
    (disj parts).AllAtoms p ↔ ∀ part ∈ parts, part.AllAtoms p := by
  rw [AllAtoms, eachAllAtoms_iff]

@[simp] theorem allAtoms_exist {vars : List Variable} {inner : Formula} :
    (exist vars inner).AllAtoms p ↔ inner.AllAtoms p := by
  rw [AllAtoms]

@[simp] theorem allAtoms_implies {body head : Formula} :
    (implies body head).AllAtoms p ↔ body.AllAtoms p ∧ head.AllAtoms p := by
  rw [AllAtoms]

@[simp] theorem allAtoms_and {parts : List Formula} :
    (and parts).AllAtoms p ↔ ∀ part ∈ parts, part.AllAtoms p := by
  unfold and
  split <;> simp

@[simp] theorem allAtoms_or {parts : List Formula} :
    (or parts).AllAtoms p ↔ ∀ part ∈ parts, part.AllAtoms p := by
  unfold or
  split <;> simp

theorem AllAtoms.mono {f : Formula} (h : f.AllAtoms p) (hpq : ∀ t, p t → q t) : f.AllAtoms q := by
  induction f with
  | atom t => exact allAtoms_atom.mpr (hpq t (allAtoms_atom.mp h))
  | conj parts ih =>
    exact allAtoms_conj.mpr fun part hpart => ih part hpart (allAtoms_conj.mp h part hpart)
  | disj parts ih =>
    exact allAtoms_disj.mpr fun part hpart => ih part hpart (allAtoms_disj.mp h part hpart)
  | exist vars inner ih => exact allAtoms_exist.mpr (ih (allAtoms_exist.mp h))
  | implies body head ihb ihh =>
    obtain ⟨hb, hh⟩ := allAtoms_implies.mp h
    exact allAtoms_implies.mpr ⟨ihb hb, ihh hh⟩

/-- A formula says the same under truth values that agree on its atoms. -/
theorem holds_congr {f : Formula} {truth' : Triple → Prop}
    (h : f.AllAtoms fun t => truth t ↔ truth' t) : f.Holds truth ↔ f.Holds truth' := by
  induction f with
  | atom t => simpa using h
  | conj parts ih =>
    rw [holds_conj, holds_conj]
    exact forall₂_congr fun part hpart => ih part hpart (allAtoms_conj.mp h part hpart)
  | disj parts ih =>
    rw [holds_disj, holds_disj]
    refine exists_congr fun part => and_congr_right fun hpart => ?_
    exact ih part hpart (allAtoms_disj.mp h part hpart)
  | exist vars inner ih => simpa using ih (allAtoms_exist.mp h)
  | implies body head ihb ihh =>
    obtain ⟨hb, hh⟩ := allAtoms_implies.mp h
    rw [holds_implies, holds_implies]
    exact imp_congr (ihb hb) (ihh hh)

/-! ### Alternatives -/

/-- An invariant of alternatives: what holds of parts, and of what is put together from
parts, holds of all. -/
theorem foldl_pairs_forall {P : List Triple → Prop} (happend : ∀ a b, P a → P b → P (a ++ b))
    {lists : List (List (List Triple))} (hlists : ∀ options ∈ lists, ∀ alt ∈ options, P alt)
    {first : List (List Triple)} (hfirst : ∀ alt ∈ first, P alt) :
    ∀ alt ∈ lists.foldl pairs first, P alt := by
  induction lists generalizing first with
  | nil => exact hfirst
  | cons options rest ih =>
    rw [List.foldl_cons]
    apply ih fun o ho => hlists o (List.mem_cons_of_mem _ ho)
    intro alt halt
    obtain ⟨a, ha, hmap⟩ := List.mem_flatMap.mp halt
    obtain ⟨b, hb, rfl⟩ := List.mem_map.mp hmap
    exact happend a b (hfirst a ha) (hlists options (List.mem_cons_self ..) b hb)

theorem exists_foldl_pairs {lists : List (List (List Triple))} {first : List (List Triple)} :
    (∃ alt ∈ lists.foldl pairs first, ∀ t ∈ alt, truth t) ↔
      (∃ alt ∈ first, ∀ t ∈ alt, truth t) ∧
        ∀ options ∈ lists, ∃ alt ∈ options, ∀ t ∈ alt, truth t := by
  induction lists generalizing first with
  | nil => simp
  | cons options rest ih =>
    have hpairs : (∃ alt ∈ pairs first options, ∀ t ∈ alt, truth t) ↔
        (∃ alt ∈ first, ∀ t ∈ alt, truth t) ∧ ∃ alt ∈ options, ∀ t ∈ alt, truth t := by
      constructor
      · intro ⟨alt, halt, htrue⟩
        obtain ⟨a, ha, hmap⟩ := List.mem_flatMap.mp halt
        obtain ⟨b, hb, rfl⟩ := List.mem_map.mp hmap
        obtain ⟨hta, htb⟩ := List.forall_mem_append.mp htrue
        exact ⟨⟨a, ha, hta⟩, b, hb, htb⟩
      · intro ⟨⟨a, ha, hta⟩, b, hb, htb⟩
        exact ⟨a ++ b, List.mem_flatMap.mpr ⟨a, ha, List.mem_map.mpr ⟨b, hb, rfl⟩⟩,
          List.forall_mem_append.mpr ⟨hta, htb⟩⟩
    rw [List.foldl_cons, ih, hpairs, List.forall_mem_cons, and_assoc]

/-- The parts of a list have alternatives each. -/
theorem alternativesOf_eq_ok {parts : List Formula} {lists : List (List (List Triple))}
    (h : alternativesOf parts = .ok lists) :
    List.Forall₂ (fun part options => part.alternatives = .ok options) parts lists := by
  induction parts generalizing lists with
  | nil =>
    cases h
    exact .nil
  | cons part rest ih =>
    rw [alternativesOf] at h
    cases hpart : part.alternatives with
    | error f =>
      rw [hpart] at h
      cases h
    | ok options =>
      cases hrest : alternativesOf rest with
      | error f =>
        rw [hpart, hrest] at h
        cases h
      | ok others =>
        rw [hpart, hrest] at h
        cases h
        exact .cons hpart (ih hrest)

theorem alternatives_conj {parts : List Formula} {options : List (List Triple)}
    (h : (conj parts).alternatives = .ok options) : ∃ lists,
      List.Forall₂ (fun part options => part.alternatives = .ok options) parts lists ∧
        options = lists.foldl pairs [[]] := by
  rw [alternatives] at h
  cases hlists : alternativesOf parts with
  | error f =>
    rw [hlists] at h
    cases h
  | ok lists =>
    rw [hlists] at h
    cases h
    exact ⟨lists, alternativesOf_eq_ok hlists, rfl⟩

theorem alternatives_disj {parts : List Formula} {options : List (List Triple)}
    (h : (disj parts).alternatives = .ok options) : ∃ lists,
      List.Forall₂ (fun part options => part.alternatives = .ok options) parts lists ∧
        options = lists.flatten := by
  rw [alternatives] at h
  cases hlists : alternativesOf parts with
  | error f =>
    rw [hlists] at h
    cases h
  | ok lists =>
    rw [hlists] at h
    cases h
    exact ⟨lists, alternativesOf_eq_ok hlists, rfl⟩

/-- **A formula is true if and only if all atoms of some alternative are.** -/
theorem holds_iff_alternatives {f : Formula} {options : List (List Triple)}
    (h : f.alternatives = .ok options) :
    f.Holds truth ↔ ∃ alt ∈ options, ∀ t ∈ alt, truth t := by
  induction f generalizing options with
  | atom t =>
    cases h
    simp
  | conj parts ih =>
    obtain ⟨lists, hlists, rfl⟩ := alternatives_conj h
    rw [holds_conj, exists_foldl_pairs]
    have hparts : (∀ part ∈ parts, part.Holds truth) ↔
        ∀ options ∈ lists, ∃ alt ∈ options, ∀ t ∈ alt, truth t := by
      clear h
      induction hlists with
      | nil => simp
      | cons hpart _ ihl =>
        obtain ⟨ihp, ihr⟩ := List.forall_mem_cons.mp ih
        rw [List.forall_mem_cons, List.forall_mem_cons, ihp hpart, ihl ihr]
    rw [hparts]
    simp
  | disj parts ih =>
    obtain ⟨lists, hlists, rfl⟩ := alternatives_disj h
    rw [holds_disj]
    clear h
    induction hlists with
    | nil => simp
    | cons hpart _ ihl =>
      obtain ⟨ihp, ihr⟩ := List.forall_mem_cons.mp ih
      rw [List.exists_mem_cons_iff, ihp hpart, ihl ihr, List.flatten_cons]
      simp only [List.mem_append, or_and_right, exists_or]
  | exist vars inner ih =>
    rw [holds_exist]
    exact ih h
  | implies body head _ _ => cases h

/-- The alternatives of a conjunction are put together from those of its parts. -/
theorem alternatives_conj_forall {P : List Triple → Prop} (hnil : P [])
    (happend : ∀ a b, P a → P b → P (a ++ b)) {parts : List Formula}
    (hparts : ∀ part ∈ parts, ∀ options, part.alternatives = .ok options → ∀ alt ∈ options, P alt)
    {options : List (List Triple)} (h : (conj parts).alternatives = .ok options) :
    ∀ alt ∈ options, P alt := by
  obtain ⟨lists, hlists, rfl⟩ := alternatives_conj h
  apply foldl_pairs_forall happend
  · clear h
    induction hlists with
    | nil => simp
    | cons hpart _ ih =>
      obtain ⟨hfirst, hrest⟩ := List.forall_mem_cons.mp hparts
      exact List.forall_mem_cons.mpr ⟨hfirst _ hpart, ih hrest⟩
  · simpa using hnil

/-- The alternatives of two formulas together. -/
theorem alternatives_and_pair {f g : Formula} {options : List (List Triple)}
    (h : (and [f, g]).alternatives = .ok options) : ∃ firsts seconds,
      f.alternatives = .ok firsts ∧ g.alternatives = .ok seconds ∧
        ∀ alt ∈ options, ∃ a ∈ firsts, ∃ b ∈ seconds, alt = a ++ b := by
  change (conj [f, g]).alternatives = .ok options at h
  obtain ⟨lists, hlists, rfl⟩ := alternatives_conj h
  obtain ⟨firsts, rest, hf, hrest, rfl⟩ := List.forall₂_cons_left_iff.mp hlists
  obtain ⟨seconds, rest, hg, hnil, rfl⟩ := List.forall₂_cons_left_iff.mp hrest
  cases hnil
  refine ⟨firsts, seconds, hf, hg, fun alt halt => ?_⟩
  simp only [List.foldl_cons, List.foldl_nil, pairs, List.mem_flatMap, List.mem_map] at halt
  obtain ⟨_, ⟨start, hstart, a, ha, rfl⟩, b, hb, rfl⟩ := halt
  rw [List.mem_singleton.mp hstart, List.nil_append]
  exact ⟨a, ha, b, hb, rfl⟩

/-- The alternatives of a disjunction are those of its parts. -/
theorem alternatives_disj_forall {P : List Triple → Prop} {parts : List Formula}
    (hparts : ∀ part ∈ parts, ∀ options, part.alternatives = .ok options → ∀ alt ∈ options, P alt)
    {options : List (List Triple)} (h : (disj parts).alternatives = .ok options) :
    ∀ alt ∈ options, P alt := by
  obtain ⟨lists, hlists, rfl⟩ := alternatives_disj h
  clear h
  induction hlists with
  | nil => simp
  | cons hpart _ ih =>
    obtain ⟨hfirst, hrest⟩ := List.forall_mem_cons.mp hparts
    rw [List.flatten_cons]
    exact List.forall_mem_append.mpr ⟨hfirst _ hpart, ih hrest⟩

theorem alternatives_and_forall {P : List Triple → Prop} (hnil : P [])
    (happend : ∀ a b, P a → P b → P (a ++ b)) {parts : List Formula}
    (hparts : ∀ part ∈ parts, ∀ options, part.alternatives = .ok options → ∀ alt ∈ options, P alt)
    {options : List (List Triple)} (h : (and parts).alternatives = .ok options) :
    ∀ alt ∈ options, P alt := by
  unfold and at h
  split at h
  · exact hparts _ (List.mem_singleton_self _) options h
  · exact alternatives_conj_forall hnil happend hparts h

theorem alternatives_or_forall {P : List Triple → Prop} {parts : List Formula}
    (hparts : ∀ part ∈ parts, ∀ options, part.alternatives = .ok options → ∀ alt ∈ options, P alt)
    {options : List (List Triple)} (h : (or parts).alternatives = .ok options) :
    ∀ alt ∈ options, P alt := by
  unfold or at h
  split at h
  · exact hparts _ (List.mem_singleton_self _) options h
  · exact alternatives_disj_forall hparts h

/-- Alternatives have atoms of the formula only. -/
theorem AllAtoms.alternatives {f : Formula} (hf : f.AllAtoms p) {options : List (List Triple)}
    (h : f.alternatives = .ok options) : ∀ alt ∈ options, ∀ t ∈ alt, p t := by
  induction f generalizing options with
  | atom t =>
    cases h
    simpa using hf
  | conj parts ih =>
    refine alternatives_conj_forall (by simp) (fun a b ha hb => ?_) (fun part hpart _ ho => ?_) h
    · exact List.forall_mem_append.mpr ⟨ha, hb⟩
    · exact ih part hpart (allAtoms_conj.mp hf part hpart) ho
  | disj parts ih =>
    exact alternatives_disj_forall
      (fun part hpart _ ho => ih part hpart (allAtoms_disj.mp hf part hpart) ho) h
  | exist vars inner ih => exact ih (allAtoms_exist.mp hf) h
  | implies body head _ _ => cases h

/-! ### Conjuncts -/

theorem conjunctsOf_cons {part : Formula} {rest : List Formula} {atoms : List Triple}
    (h : conjunctsOf? (part :: rest) = some atoms) : ∃ first others,
      part.conjuncts? = some first ∧ conjunctsOf? rest = some others ∧ atoms = first ++ others := by
  rw [conjunctsOf?] at h
  obtain ⟨first, hfirst, h⟩ := Option.bind_eq_some_iff.mp h
  obtain ⟨others, hothers, h⟩ := Option.bind_eq_some_iff.mp h
  cases h
  exact ⟨first, others, hfirst, hothers, rfl⟩

/-- A formula with conjuncts is true if and only if they are. -/
theorem holds_iff_conjuncts {f : Formula} {atoms : List Triple} (h : f.conjuncts? = some atoms) :
    f.Holds truth ↔ ∀ t ∈ atoms, truth t := by
  induction f generalizing atoms with
  | atom t =>
    cases h
    simp
  | conj parts ih =>
    rw [holds_conj]
    rw [conjuncts?] at h
    induction parts generalizing atoms with
    | nil =>
      cases h
      simp
    | cons part rest ihl =>
      obtain ⟨first, others, hfirst, hothers, rfl⟩ := conjunctsOf_cons h
      obtain ⟨ihp, ihr⟩ := List.forall_mem_cons.mp ih
      rw [List.forall_mem_cons, List.forall_mem_append, ihp hfirst, ihl ihr hothers]
  | disj parts _ => cases h
  | exist vars inner ih =>
    rw [holds_exist]
    exact ih h
  | implies body head _ _ => cases h

/-- The atoms of a formula with conjuncts are these. -/
theorem allAtoms_iff_conjuncts {f : Formula} {atoms : List Triple}
    (h : f.conjuncts? = some atoms) : f.AllAtoms p ↔ ∀ t ∈ atoms, p t := by
  induction f generalizing atoms with
  | atom t =>
    cases h
    simp
  | conj parts ih =>
    rw [allAtoms_conj]
    rw [conjuncts?] at h
    induction parts generalizing atoms with
    | nil =>
      cases h
      simp
    | cons part rest ihl =>
      obtain ⟨first, others, hfirst, hothers, rfl⟩ := conjunctsOf_cons h
      obtain ⟨ihp, ihr⟩ := List.forall_mem_cons.mp ih
      rw [List.forall_mem_cons, List.forall_mem_append, ihp hfirst, ihl ihr hothers]
  | disj parts _ => cases h
  | exist vars inner ih =>
    rw [allAtoms_exist]
    exact ih h
  | implies body head _ _ => cases h

theorem AllAtoms.conjuncts {f : Formula} (hf : f.AllAtoms p) {atoms : List Triple}
    (h : f.conjuncts? = some atoms) : ∀ t ∈ atoms, p t :=
  (allAtoms_iff_conjuncts h).mp hf

end HornReasoner.Formula
