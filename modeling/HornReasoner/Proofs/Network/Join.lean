import HornReasoner.Proofs.Network.Step
import Mathlib.Data.List.ProdSigma

/-! The natural join of a node.

A join looks up the memory of one side before it stores in the other, so a pair is joined
when its later half arrives. Whatever the order of arrivals, what a new node has put out is the
join of all pairs that agree on the variables they share, each pair once
(`BetaNode.insertAll_natural`). -/
namespace HornReasoner

/-- What comes to a join, on its left or on its right. -/
inductive Arrival where
  | left (i : Instantiation)
  | right (m : Match)

namespace Arrival

def left? : Arrival → Option Instantiation
  | left i => some i
  | right _ => none

def right? : Arrival → Option Match
  | left _ => none
  | right m => some m

def binding : Arrival → Binding
  | left i => i.binding
  | right m => m.binding

end Arrival

/-- The instantiations that arrive, in their order. -/
def leftsIn (arrivals : List Arrival) : List Instantiation := arrivals.filterMap Arrival.left?

/-- The matches that arrive, in their order. -/
def rightsIn (arrivals : List Arrival) : List Match := arrivals.filterMap Arrival.right?

section
variable (i : Instantiation) (m : Match) (rest : List Arrival)

@[simp] theorem leftsIn_left : leftsIn (.left i :: rest) = i :: leftsIn rest := rfl
@[simp] theorem leftsIn_right : leftsIn (.right m :: rest) = leftsIn rest := rfl
@[simp] theorem rightsIn_left : rightsIn (.left i :: rest) = rightsIn rest := rfl
@[simp] theorem rightsIn_right : rightsIn (.right m :: rest) = m :: rightsIn rest := rfl

end

/-- All that the instantiations and the matches join to, pair by pair. -/
def joins (lefts : List Instantiation) (rights : List Match) : List Instantiation :=
  lefts.flatMap fun i => rights.filterMap i.join

theorem joins_left (lefts : List Instantiation) (rights : List Match) (i : Instantiation) :
    joins (lefts ++ [i]) rights = joins lefts rights ++ rights.filterMap i.join := by
  simp [joins]

theorem joins_right (lefts : List Instantiation) (rights : List Match) (m : Match) :
    (joins lefts (rights ++ [m])).Perm
      (joins lefts rights ++ lefts.filterMap fun i => i.join m) :=
  flatMap_filterMap_append_singleton Instantiation.join lefts rights m

/-- The pairs that join, with what they join to. -/
theorem map_some_joins (lefts : List Instantiation) (rights : List Match) :
    (joins lefts rights).map some =
      ((lefts ×ˢ rights).filter fun e => (e.1.join e.2).isSome).map fun e => e.1.join e.2 := by
  have hrow : ∀ i : Instantiation, (rights.filterMap i.join).map some =
      (rights.filter fun m => (i.join m).isSome).map i.join := by
    intro i
    induction rights with
    | nil => rfl
    | cons m rest ih => cases hm : i.join m <;> simp [hm, ih]
  induction lefts with
  | nil => rfl
  | cons i rest ih =>
    show ((rights.filterMap i.join) ++ joins rest rights).map some = _
    rw [List.map_append, ih, hrow, List.product_cons, List.filter_append, List.map_append,
      List.filter_map, List.map_map]
    rfl

namespace BetaNode

/-- Puts what arrives into the memory of its side. -/
def insert (node : BetaNode) : Arrival → BetaNode × List Instantiation
  | .left i => node.insertLeft i
  | .right m => node.insertRight m

/-- Puts in one arrival after the other; all outputs, in turn. -/
def insertAll (node : BetaNode) : List Arrival → BetaNode × List Instantiation
  | [] => (node, [])
  | arrival :: rest =>
    let (next, outputs) := node.insert arrival
    let (last, more) := next.insertAll rest
    (last, outputs ++ more)

theorem joinVars_insert (node : BetaNode) (arrival : Arrival) :
    (node.insert arrival).1.joinVars = node.joinVars := by
  cases arrival with
  | left i => exact (congrArg BetaNode.joinVars (Network.clear_insertLeft node i) :)
  | right m => exact (congrArg BetaNode.joinVars (Network.clear_insertRight node m) :)

/-- What was joined before and what comes out is all there is to join. The memories hold what
arrived before, on either side. -/
theorem Files.insertAll {node : BetaNode} {lefts : List Instantiation} {rights : List Match}
    (h : node.Files lefts rights) {arrivals : List Arrival}
    (hkeys : ∀ a ∈ arrivals, (a.binding.keyFor node.joinVars).isSome) :
    (joins lefts rights ++ (node.insertAll arrivals).2).Perm
      (joins (lefts ++ leftsIn arrivals) (rights ++ rightsIn arrivals)) := by
  induction arrivals generalizing node lefts rights with
  | nil => simp [BetaNode.insertAll, leftsIn, rightsIn]
  | cons arrival rest ih =>
    obtain ⟨hkey, hrest⟩ := List.forall_mem_cons.mp hkeys
    rw [← joinVars_insert node arrival] at hrest
    show (joins lefts rights ++ ((node.insert arrival).2 ++
      ((node.insert arrival).1.insertAll rest).2)).Perm _
    rw [← List.append_assoc]
    cases arrival with
    | left i =>
      obtain ⟨hout, hfiles⟩ := h.insertLeft (i := i) hkey
      have hout : (node.insert (.left i)).2 = rights.filterMap i.join := hout
      rw [hout, ← joins_left, leftsIn_left, rightsIn_left,
        List.append_cons lefts i (leftsIn rest)]
      exact ih hfiles hrest
    | right m =>
      obtain ⟨hout, hfiles⟩ := h.insertRight (m := m) hkey
      have hout : (node.insert (.right m)).2 = lefts.filterMap fun i => i.join m := hout
      rw [hout, leftsIn_right, rightsIn_right, List.append_cons rights m (rightsIn rest)]
      exact ((joins_right lefts rights m).symm.append_right _).trans (ih hfiles hrest)

/-- Bindings of the two sides merge just if they agree on the variables of both. -/
theorem join_isSome_iff {left right : Set Variable} {shared : List Variable}
    (hshared : ∀ v, v ∈ shared ↔ v ∈ left ∧ v ∈ right) {i : Instantiation} {m : Match}
    (hi : ∀ v, i.binding.contains v = true ↔ v ∈ left)
    (hm : ∀ v, m.binding.contains v = true ↔ v ∈ right) :
    (i.join m).isSome = true ↔ ∀ v ∈ shared, i.binding.get? v = m.binding.get? v := by
  rw [Instantiation.join, Option.isSome_map, Binding.isSome_merge, Binding.agreesWith_iff]
  constructor
  · intro hagree v hv
    obtain ⟨hleft, hright⟩ := (hshared v).mp hv
    obtain ⟨t, ht⟩ := (SortedMap.contains_iff _).mp ((hi v).mpr hleft)
    obtain ⟨u, hu⟩ := (SortedMap.contains_iff _).mp ((hm v).mpr hright)
    rw [ht, hu, hagree v t u ht hu]
  · intro hequal v t u ht hu
    have hleft := (hi v).mp ((SortedMap.contains_iff _).mpr ⟨t, ht⟩)
    have hright := (hm v).mp ((SortedMap.contains_iff _).mpr ⟨u, hu⟩)
    have hvalue := hequal v ((hshared v).mpr ⟨hleft, hright⟩)
    rw [ht, hu] at hvalue
    exact Option.some.inj hvalue

/-- **In any order of arrivals a new join puts out the natural join**: what the pairs join to
that agree on every shared variable, each pair once. -/
theorem insertAll_natural {node : BetaNode} (hleftMemory : node.leftMemory = [])
    (hrightMemory : node.rightMemory = []) {left right : Set Variable}
    (hshared : ∀ v, v ∈ node.joinVars ↔ v ∈ left ∧ v ∈ right) {arrivals : List Arrival}
    (hlefts : ∀ i ∈ leftsIn arrivals, ∀ v, i.binding.contains v = true ↔ v ∈ left)
    (hrights : ∀ m ∈ rightsIn arrivals, ∀ v, m.binding.contains v = true ↔ v ∈ right) :
    ((node.insertAll arrivals).2.map some).Perm
      (((leftsIn arrivals ×ˢ rightsIn arrivals).filter fun e =>
          decide (∀ v ∈ node.joinVars, e.1.binding.get? v = e.2.binding.get? v)).map
        fun e => e.1.join e.2) := by
  have hfiles : node.Files [] [] := by
    refine ⟨?_, ?_⟩
    · rw [hleftMemory]
      exact .nil _
    · rw [hrightMemory]
      exact .nil _
  have hkeys : ∀ a ∈ arrivals, (a.binding.keyFor node.joinVars).isSome := by
    intro a ha
    refine Binding.keyFor_isSome fun v hv => ?_
    cases a with
    | left i => exact (hlefts i (List.mem_filterMap.mpr ⟨_, ha, rfl⟩) v).mpr ((hshared v).mp hv).1
    | right m => exact (hrights m (List.mem_filterMap.mpr ⟨_, ha, rfl⟩) v).mpr ((hshared v).mp hv).2
  have hall : (node.insertAll arrivals).2.Perm (joins (leftsIn arrivals) (rightsIn arrivals)) :=
    hfiles.insertAll hkeys
  refine (hall.map some).trans (.of_eq ?_)
  rw [map_some_joins]
  congr 1
  refine List.filter_congr fun e he => ?_
  obtain ⟨hi, hm⟩ := List.mem_product.mp he
  rw [Bool.eq_iff_iff, decide_eq_true_iff]
  exact join_isSome_iff hshared (hlefts _ hi) (hrights _ hm)

/-- A join of `?x p ?y` with `?y q ?z`. -/
def pathJoin : BetaNode where
  left := .beta ⟨0⟩
  right := .alpha ⟨1⟩
  joinVars := [⟨"y"⟩]

/-- Facts of both kinds by turns; the match of `b q c` arrives twice. -/
def pathArrivals : List Arrival :=
  let left (s o : String) : Arrival := .left ⟨[⟨.iri s, .iri "p", .iri o⟩],
    .ofList [(⟨"x"⟩, .iri s), (⟨"y"⟩, .iri o)]⟩
  let right (s o : String) : Arrival := .right ⟨⟨.iri s, .iri "q", .iri o⟩,
    .ofList [(⟨"y"⟩, .iri s), (⟨"z"⟩, .iri o)]⟩
  [left "a" "b", right "d" "c", right "b" "c", left "e" "b", right "b" "c"]

/-- Both facts that lead to `b` are joined with both arrivals of `b q c`. -/
theorem insertAll_natural_of_path :
    (pathJoin.insertAll pathArrivals).2.length = 4 ∧
      ((pathJoin.insertAll pathArrivals).2.map some).Perm
        (((leftsIn pathArrivals ×ˢ rightsIn pathArrivals).filter fun e =>
            decide (∀ v ∈ pathJoin.joinVars, e.1.binding.get? v = e.2.binding.get? v)).map
          fun e => e.1.join e.2) := by
  have hkeys : ∀ i ∈ leftsIn pathArrivals, i.binding.toList.map Prod.fst = [⟨"x"⟩, ⟨"y"⟩] := by
    decide +kernel
  have hkeys' : ∀ m ∈ rightsIn pathArrivals, m.binding.toList.map Prod.fst = [⟨"y"⟩, ⟨"z"⟩] := by
    decide +kernel
  have hcontains : ∀ (b : Binding) {vs : List Variable}, b.toList.map Prod.fst = vs →
      ∀ v, b.contains v = true ↔ v ∈ {v | v ∈ vs} := by
    rintro b _ rfl v
    exact SortedMap.lookup_isSome_iff
  refine ⟨by decide +kernel, insertAll_natural rfl rfl (fun v => ?_)
    (fun i hi => hcontains i.binding (hkeys i hi)) (fun m hm => hcontains m.binding (hkeys' m hm))⟩
  show v ∈ [⟨"y"⟩] ↔ v ∈ [⟨"x"⟩, ⟨"y"⟩] ∧ v ∈ [⟨"y"⟩, ⟨"z"⟩]
  have hdistinct : (⟨"x"⟩ : Variable) ≠ ⟨"y"⟩ ∧ (⟨"x"⟩ : Variable) ≠ ⟨"z"⟩ := by decide
  grind

end BetaNode

end HornReasoner
