import HornReasoner.Proofs.Formula.Horn

/-! The order of atoms.

The atoms of a formula are collected from a stack: the formula on top gives its atom, or leaves its
children in its place. What was collected and the atoms of the stack, in order, are together the
same after each round. So the loop, which ends as soon as the stack is empty, gives what reading the
formula from left to right gives, and an alternative leaves some of these atoms out and moves none
(`atoms_exact`). -/
namespace HornReasoner.Formula

/-! ### From left to right -/

mutual

/-- The atoms as they are read, a body before its head. -/
def inOrder : Formula → List Triple
  | atom t => [t]
  | conj parts => inOrderOf parts
  | disj parts => inOrderOf parts
  | exist _ inner => inner.inOrder
  | implies body head => body.inOrder ++ head.inOrder

def inOrderOf : List Formula → List Triple
  | [] => []
  | part :: rest => part.inOrder ++ inOrderOf rest

end

theorem inOrderOf_eq (parts : List Formula) : inOrderOf parts = parts.flatMap inOrder := by
  induction parts with
  | nil => rfl
  | cons part rest ih => rw [inOrderOf, ih, List.flatMap_cons]

@[simp] theorem inOrder_conj (parts : List Formula) :
    (conj parts).inOrder = parts.flatMap inOrder := by
  rw [inOrder, inOrderOf_eq]

@[simp] theorem inOrder_disj (parts : List Formula) :
    (disj parts).inOrder = parts.flatMap inOrder := by
  rw [inOrder, inOrderOf_eq]

/-! ### The loop -/

/-- The atom that a formula is. -/
def own : Formula → List Triple
  | atom t => [t]
  | conj _ | disj _ | exist _ _ | implies _ _ => []

/-- The formulas that another one is put together from. -/
def children : Formula → List Formula
  | atom _ => []
  | conj parts => parts
  | disj parts => parts
  | exist _ inner => [inner]
  | implies body head => [body, head]

/-- Taking the formula on top, with its children in its place, empties the stack and gives the
atoms. -/
inductive Walked : List Formula → List Triple → Prop where
  | done : Walked [] []
  | round {f : Formula} {stack : List Formula} {atoms : List Triple} :
      Walked (f.children ++ stack) atoms → Walked (f :: stack) (f.own ++ atoms)

theorem walk_cons (fuel : Nat) (f : Formula) (stack : List Formula) :
    walk (fuel + 1) (f :: stack) = f.own ++ walk fuel (f.children ++ stack) := by
  cases f <;> rfl

/-- A formula is one node more than its children. -/
theorem sizes_children (f : Formula) : sizes f.children + 1 = f.size := by
  cases f <;> simp [children, sizes, size]

/-- A formula has its own atom, and then those of its children. -/
theorem own_append_children (f : Formula) : f.own ++ f.children.flatMap inOrder = f.inOrder := by
  cases f with
  | conj parts => exact (inOrder_conj parts).symm
  | disj parts => exact (inOrder_disj parts).symm
  | atom t | exist vars inner | implies body head => simp [own, children, inOrder]

/-- Fuel for all nodes on the stack is enough to empty it. -/
theorem walked_walk {fuel : Nat} {stack : List Formula} (hfuel : sizes stack ≤ fuel) :
    Walked stack (walk fuel stack) := by
  induction fuel generalizing stack with
  | zero =>
    cases stack with
    | nil => exact .done
    | cons f rest =>
      have hpos := f.size_pos
      rw [sizes] at hfuel
      omega
  | succ fuel ih =>
    cases stack with
    | nil => exact .done
    | cons f rest =>
      have hchildren := f.sizes_children
      rw [walk_cons]
      refine .round (ih ?_)
      rw [sizes] at hfuel
      rw [sizes_append]
      omega

/-- **The loop reads the stack from left to right.** -/
theorem Walked.eq_flatMap {stack : List Formula} {atoms : List Triple} (h : Walked stack atoms) :
    atoms = stack.flatMap inOrder := by
  induction h with
  | done => rfl
  | @round f stack atoms _ ih =>
    rw [ih, List.flatMap_append, ← List.append_assoc, own_append_children, List.flatMap_cons]

theorem walked_atoms (f : Formula) : Walked [f] f.atoms := by
  refine walked_walk ?_
  simp [sizes]

theorem atoms_eq_inOrder (f : Formula) : f.atoms = f.inOrder :=
  f.walked_atoms.eq_flatMap.trans (List.flatMap_singleton inOrder f)

/-! ### Alternatives -/

/-- What holds of each part and its alternatives holds of both lists. -/
theorem forall₂_alternatives {R : Formula → List (List Triple) → Prop} {parts : List Formula}
    {lists : List (List (List Triple))}
    (hparts : ∀ part ∈ parts, ∀ options, part.alternatives = .ok options → R part options)
    (hlists : List.Forall₂ (fun part options => part.alternatives = .ok options) parts lists) :
    List.Forall₂ R parts lists := by
  refine List.Forall₂.imp ?_ ((List.forall₂_and_left _ _).mpr ⟨hparts, hlists⟩)
  exact fun part options hboth => hboth.1 options hboth.2

/-- Where alternatives keep the order, so do those that are put together from them. -/
theorem sublist_of_mem_foldl_pairs {parts : List Formula} {lists : List (List (List Triple))}
    (hlists : List.Forall₂ (fun part options => ∀ alt ∈ options, alt.Sublist part.inOrder)
      parts lists) {before : List Triple} {first : List (List Triple)}
    (hfirst : ∀ alt ∈ first, alt.Sublist before) :
    ∀ alt ∈ lists.foldl pairs first, alt.Sublist (before ++ parts.flatMap inOrder) := by
  induction hlists generalizing before first with
  | nil =>
    rw [List.flatMap_nil, List.append_nil]
    exact hfirst
  | cons hpart _ ih =>
    rw [List.flatMap_cons, ← List.append_assoc, List.foldl_cons]
    apply ih
    intro alt halt
    obtain ⟨a, ha, hmap⟩ := List.mem_flatMap.mp halt
    obtain ⟨b, hb, rfl⟩ := List.mem_map.mp hmap
    exact (hfirst a ha).append (hpart b hb)

theorem sublist_of_mem_flatten {parts : List Formula} {lists : List (List (List Triple))}
    (hlists : List.Forall₂ (fun part options => ∀ alt ∈ options, alt.Sublist part.inOrder)
      parts lists) : ∀ alt ∈ lists.flatten, alt.Sublist (parts.flatMap inOrder) := by
  induction hlists with
  | nil => exact List.forall_mem_nil _
  | cons hpart _ ih =>
    rw [List.flatten_cons, List.flatMap_cons]
    refine List.forall_mem_append.mpr ⟨fun alt halt => ?_, fun alt halt => ?_⟩
    · exact (hpart alt halt).trans (List.sublist_append_left ..)
    · exact (ih alt halt).trans (List.sublist_append_right ..)

/-- **An alternative keeps the order of its atoms.** -/
theorem sublist_of_mem_alternatives {f : Formula} {options : List (List Triple)}
    (h : f.alternatives = .ok options) : ∀ alt ∈ options, alt.Sublist f.inOrder := by
  induction f generalizing options with
  | atom t =>
    cases h
    exact List.forall_mem_singleton.mpr (.refl _)
  | conj parts ih =>
    obtain ⟨lists, hlists, rfl⟩ := alternatives_conj h
    have hstart : ∀ alt ∈ [([] : List Triple)], alt.Sublist [] :=
      List.forall_mem_singleton.mpr (.refl _)
    have hparts := forall₂_alternatives (fun part hpart _ => ih part hpart) hlists
    rw [inOrder_conj]
    exact sublist_of_mem_foldl_pairs hparts hstart
  | disj parts ih =>
    obtain ⟨lists, hlists, rfl⟩ := alternatives_disj h
    rw [inOrder_disj]
    exact sublist_of_mem_flatten (forall₂_alternatives (fun part hpart _ => ih part hpart) hlists)
  | exist vars inner ih => exact ih h
  | implies body head _ _ => cases h

/-- **The loop ends with the atoms from left to right**, whatever the formula, and every alternative
is a sublist of them. -/
theorem atoms_exact (f : Formula) : Walked [f] f.atoms ∧ f.atoms = f.inOrder ∧
    ∀ options, f.alternatives = .ok options → ∀ alt ∈ options, alt.Sublist f.atoms := by
  refine ⟨f.walked_atoms, f.atoms_eq_inOrder, fun options h => ?_⟩
  rw [f.atoms_eq_inOrder]
  exact sublist_of_mem_alternatives h

/-- A disjunction, one part of which is quantified, before an atom. -/
def uneven : Formula :=
  .conj [.disj [classAtom (.var ⟨"x"⟩) (.iri "A"),
      .exist [⟨"y"⟩] (classAtom (.var ⟨"y"⟩) (.iri "B"))], classAtom (.var ⟨"x"⟩) (.iri "C")]

theorem atoms_exact_of_uneven : uneven.atoms.map Triple.object = [.iri "A", .iri "B", .iri "C"] ∧
    ∃ options, uneven.alternatives = .ok options ∧ options.length = 2 ∧
      ∀ alt ∈ options, alt.Sublist uneven.atoms :=
  ⟨by decide, _, rfl, rfl, (atoms_exact uneven).2.2 _ rfl⟩

end HornReasoner.Formula
