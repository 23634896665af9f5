import HornReasoner.Proofs.Order.Permutation
import HornReasoner.Proofs.Rule.Atoms

/-! The positions of a rule.

A rule is made of its atoms position by position (`positions_ofAtoms`): a blank node becomes the
variable with an underscore before its label, whatever else stands in the rule. So positions stay
apart unless a blank node and the variable of that name were both written, and where they were,
they become one variable (`ofAtoms_positions`). -/
namespace HornReasoner.HornRule

/-- The terms at all positions of a body and a head, in order. -/
def positions (body head : List Triple) : List Term := (body ++ head).flatMap Triple.terms

/-- Two positions hold equal terms in the one list exactly where they do in the other. -/
def SameEqualities (old new : List Term) : Prop :=
  new.length = old.length ∧ ∀ i j, i < old.length → j < old.length →
    (new[i]? = new[j]? ↔ old[i]? = old[j]?)

/-- One term is a blank node, the other the variable that it becomes. -/
def Clash (s t : Term) : Prop :=
  ∃ b, (s = .blank b ∧ t = .var ⟨"_" ++ b⟩) ∨ (s = .var ⟨"_" ++ b⟩ ∧ t = .blank b)

variable {label : String} {body head : List Triple} {s t : Term}

theorem withoutBlank_eq_of_clash (h : Clash s t) : withoutBlank s = withoutBlank t := by
  obtain ⟨b, ⟨rfl, rfl⟩ | ⟨rfl, rfl⟩⟩ := h <;> rfl

theorem withoutBlank_eq_iff : withoutBlank s = withoutBlank t ↔ s = t ∨ Clash s t := by
  constructor
  · intro heq
    cases hs : s.isBlank with
    | false =>
      rw [withoutBlank_of_not_isBlank hs] at heq
      cases t with
      | blank c => exact .inr ⟨c, .inr ⟨heq, rfl⟩⟩
      | iri i | literal l | var v => exact .inl heq
    | true =>
      cases s with
      | iri i | literal l | var v => cases hs
      | blank b =>
        cases t with
        | iri i | literal l => cases heq
        | var v => exact .inr ⟨b, .inl ⟨rfl, heq.symm⟩⟩
        | blank c =>
          have hname : ("_" ++ b).toList = ("_" ++ c).toList := by
            injection heq with hvariable
            exact congrArg (fun v : Variable => v.name.toList) hvariable
          rw [String.toList_append, String.toList_append] at hname
          exact .inl (congrArg Term.blank (String.toList_injective (List.append_cancel_left hname)))
  · rintro (rfl | hclash)
    · rfl
    · exact withoutBlank_eq_of_clash hclash

theorem positions_ofAtoms (label : String) (body head : List Triple) :
    positions (ofAtoms label body head).body (ofAtoms label body head).head =
      (positions body head).map withoutBlank := by
  rw [positions, positions, List.map_flatMap]
  show (body.map (·.map withoutBlank) ++ head.map (·.map withoutBlank)).flatMap Triple.terms = _
  rw [← List.map_append, List.flatMap_map]
  rfl

/-- The positions stay apart if no blank node stands with the variable that it becomes. -/
theorem sameEqualities_map_iff {old : List Term} : SameEqualities old (old.map withoutBlank) ↔
    ∀ b, .blank b ∈ old → .var ⟨"_" ++ b⟩ ∉ old := by
  have hget : ∀ {i : Nat} (hi : i < old.length),
      (old.map withoutBlank)[i]? = some (withoutBlank old[i]) := by
    intro i hi
    rw [List.getElem?_map, List.getElem?_eq_getElem hi]
    rfl
  constructor
  · intro hsame b hblank hvar
    obtain ⟨i, hi, hblank⟩ := List.getElem_of_mem hblank
    obtain ⟨j, hj, hvar⟩ := List.getElem_of_mem hvar
    have hold := (hsame.2 i j hi hj).mp (by rw [hget hi, hget hj, hblank, hvar]; rfl)
    rw [List.getElem?_eq_getElem hi, List.getElem?_eq_getElem hj, hblank, hvar] at hold
    cases hold
  · intro hapart
    refine ⟨List.length_map _, fun i j hi hj => ?_⟩
    rw [hget hi, hget hj, List.getElem?_eq_getElem hi, List.getElem?_eq_getElem hj,
      Option.some_inj, Option.some_inj, withoutBlank_eq_iff]
    refine or_iff_left ?_
    rintro ⟨b, ⟨hblank, hvar⟩ | ⟨hvar, hblank⟩⟩
    · exact hapart b (hblank ▸ List.getElem_mem hi) (hvar ▸ List.getElem_mem hj)
    · exact hapart b (hblank ▸ List.getElem_mem hj) (hvar ▸ List.getElem_mem hi)

/-- **The positions of a rule.** Two of them hold equal terms if and only if they did before, or
one held a blank node and the other the variable that it becomes; so all stay as they were if and
only if no blank node of the rule is written with that variable. No blank node is left, and the
existentials are the variables that the head has and the body lacks, each once. -/
theorem ofAtoms_positions (label : String) (body head : List Triple) :
    let rule := ofAtoms label body head
    (rule.body.length = body.length ∧ rule.head.length = head.length) ∧
    (∀ (i j : Nat) (s t : Term),
      (positions body head)[i]? = some s → (positions body head)[j]? = some t →
      ((positions rule.body rule.head)[i]? = (positions rule.body rule.head)[j]? ↔
        s = t ∨ Clash s t)) ∧
    (SameEqualities (positions body head) (positions rule.body rule.head) ↔
      ∀ b, .blank b ∈ positions body head → .var ⟨"_" ++ b⟩ ∉ positions body head) ∧
    (∀ t ∈ positions rule.body rule.head, t.isBlank = false) ∧
    rule.existentials.Nodup ∧
    ∀ v, v ∈ rule.existentials ↔ v ∈ rule.headVariables ∧ v ∉ rule.bodyVariables := by
  intro rule
  have hpositions : positions rule.body rule.head = (positions body head).map withoutBlank :=
    positions_ofAtoms label body head
  rw [hpositions]
  refine ⟨⟨List.length_map _, List.length_map _⟩, fun i j s t hs ht => ?_, sameEqualities_map_iff,
    fun t ht => ?_, nodup_eraseDups _, fun v => mem_headOnly⟩
  · rw [List.getElem?_map, List.getElem?_map, hs, ht, Option.map_some, Option.map_some,
      Option.some_inj, withoutBlank_eq_iff]
  · obtain ⟨u, _, rfl⟩ := List.mem_map.mp ht
    cases u <;> rfl

/-- A body about `?_b` and a head about `_:b`. -/
def mergingBody : List Triple := [⟨.var ⟨"_b"⟩, .iri "p", .iri "o"⟩]

def mergingHead : List Triple := [⟨.blank "b", .iri "q", .iri "o"⟩]

/-- The blank node of the head becomes the variable of the body, and no existential. -/
theorem blank_merged : ¬ SameEqualities (positions mergingBody mergingHead)
      (positions (ofAtoms "merging" mergingBody mergingHead).body
        (ofAtoms "merging" mergingBody mergingHead).head) ∧
    (ofAtoms "merging" mergingBody mergingHead).existentials = [] := by
  rw [positions_ofAtoms, sameEqualities_map_iff]
  exact ⟨fun h => h "b" (by decide) (by decide), rfl⟩

end HornReasoner.HornRule
