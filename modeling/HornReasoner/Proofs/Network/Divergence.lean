import HornReasoner.Proofs.Network.Fixpoint
import HornReasoner.Proofs.Network.Minting
import Mathlib.Data.Set.Finite.Lemmas

/-! Rules that lead back to themselves.

At rest whatever makes a body true has a blank node of its own for each existential variable. If
that blank node makes the body true again, every node has a successor that no other has. The facts
are finitely many, so every node is a successor as well and was minted
(`Resting.mem_blanks_of_loop`): with a node that was fed there is no rest. -/
namespace HornReasoner

/-- Nodes that all have a successor, minted under a key of their own, are themselves minted. -/
theorem SkolemTable.Orderly.mem_blanks_of_successors {s : SkolemTable} (h : s.Orderly)
    {nodes : Set Term} (hfinite : nodes.Finite) {key : Term → ProductionId × List Triple}
    (hkey : Function.Injective key)
    (hnext : ∀ y ∈ nodes, ∃ fresh, ∃ v z, (key y, fresh) ∈ s.minted ∧ (v, z) ∈ fresh ∧ z ∈ nodes) :
    ∀ y ∈ nodes, y ∈ s.blanks := by
  choose! fresh v next hentry hvalue hnode using hnext
  have hinjective : Set.InjOn next nodes := by
    intro y hy y' hy' heq
    -- a successor tells its entry, and the entry's key the node
    have hsame := h.eq_of_blank (hentry y hy) (hentry y' hy') (hvalue y hy) (heq ▸ hvalue y' hy')
    exact hkey (congrArg Prod.fst hsame.1)
  have honto := (hfinite.injOn_iff_bijOn_of_mapsTo hnode).mp hinjective
  intro y hy
  obtain ⟨y', hy', rfl⟩ := honto.surjOn hy
  exact List.mem_flatMap.mpr ⟨_, hentry y' hy', List.mem_map.mpr ⟨_, hvalue y' hy', rfl⟩⟩

namespace Network

/-- **A loop has no first node.** The body of a rule is one atom with a variable. If its conclusions
lead back to that atom with the value of an existential variable, all that the atom is true of was
minted. -/
theorem Resting.mem_blanks_of_loop {net : Network} {fed : List Triple} (h : net.Resting fed [])
    (horderly : net.skolem.Orderly) {id : ProductionId} {rule : HornRule}
    (hrule : net.rule? id = some rule) (hbuilt : rule.Built) {atom : Triple}
    (hbody : rule.body = [atom]) (htest : net.builtins.isTest atom = false) {x z : Variable}
    (hx : x ∈ atom.vars) (hz : z ∈ rule.existentials)
    (hback : ∀ τ : Variable → Term, (∀ a ∈ rule.head, a.assign τ ∈ net.workingMemory.toList) →
      atom.assign (fun _ => τ z) ∈ net.workingMemory.toList) (y : Term)
    (hy : atom.assign (fun _ => y) ∈ net.workingMemory.toList) : y ∈ net.skolem.blanks := by
  have hinjective := Triple.assign_injective hx
  have hfinite : {y | atom.assign (fun _ => y) ∈ net.workingMemory.toList}.Finite :=
    (List.finite_toSet net.workingMemory.toList).preimage hinjective.injOn
  have hpattern : net.builtins.patterns rule.body = [atom] := by
    rw [hbody, Registry.patterns_of_not_isTest htest]
  have hkey : Function.Injective fun y => (id, Sorted.ofList [atom.assign fun _ => y]) := by
    intro y y' heq
    exact hinjective (List.singleton_inj.mp (congrArg Prod.snd heq))
  refine horderly.mem_blanks_of_successors hfinite hkey (fun y hy => ?_) y hy
  obtain ⟨τ, _, hhead, hvalues⟩ := h.exists_assignment hrule hbuilt (fun _ => y) fun a ha => by
    rw [hbody] at ha
    rw [List.mem_singleton.mp ha, if_neg (by simp [htest])]
    exact hy
  obtain ⟨fresh, hentry, hvalue⟩ := hvalues z hz
  rw [hpattern] at hentry
  exact ⟨fresh, z, τ z, hentry, hvalue, hback τ hhead⟩

end Network

end HornReasoner
