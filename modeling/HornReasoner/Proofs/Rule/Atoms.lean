import HornReasoner.Proofs.Rdf.Renaming
import HornReasoner.Rule.Horn

/-! Rules made of atoms.

The existentials of a rule are the variables that its head has and its body lacks. Atoms
without blank nodes stand in the rule as they are. -/
namespace HornReasoner.HornRule

variable {label : String} {body head : List Triple} {v : Variable}

theorem mem_headOnly :
    v ∈ headOnly body head ↔ v ∈ head.flatMap Triple.vars ∧ v ∉ body.flatMap Triple.vars := by
  rw [headOnly, List.mem_eraseDups, List.mem_filter]
  simp

/-- A rule has no existentials if and only if its body has all variables of its head. -/
theorem headOnly_eq_nil_iff :
    headOnly body head = [] ↔ ∀ t ∈ head, t.vars ⊆ body.flatMap Triple.vars := by
  rw [List.eq_nil_iff_forall_not_mem]
  constructor
  · intro h t ht v hv
    by_contra hnot
    exact h v (mem_headOnly.mpr ⟨List.mem_flatMap.mpr ⟨t, ht, hv⟩, hnot⟩)
  · intro h v hv
    obtain ⟨hmem, hnot⟩ := mem_headOnly.mp hv
    obtain ⟨t, ht, hv⟩ := List.mem_flatMap.mp hmem
    exact hnot (h t ht hv)

theorem withoutBlank_of_not_isBlank {x : Term} (hx : x.isBlank = false) : withoutBlank x = x := by
  cases x with
  | blank s => cases hx
  | iri s | literal l | var v => rfl

/-- A rule made from atoms without blank nodes has just these atoms. -/
theorem ofAtoms_of_not_isBlank (hbody : ∀ t ∈ body, ∀ x ∈ t.terms, x.isBlank = false)
    (hhead : ∀ t ∈ head, ∀ x ∈ t.terms, x.isBlank = false) :
    ofAtoms label body head = ⟨label, body, head, headOnly body head⟩ := by
  have hmap : ∀ ts : List Triple, (∀ t ∈ ts, ∀ x ∈ t.terms, x.isBlank = false) →
      ts.map (·.map withoutBlank) = ts := fun ts hts =>
    (List.map_congr_left fun t ht => Triple.map_eq_self fun x hx =>
      withoutBlank_of_not_isBlank (hts t ht x hx)).trans (List.map_id ts)
  rw [ofAtoms, hmap body hbody, hmap head hhead]

/-! ### Rules as they are built -/

/-- The rule was made from a body and a head, so its existential variables are those of the
head that the body lacks. -/
def Built (rule : HornRule) : Prop :=
  ∃ label body head, rule = HornRule.ofAtoms label body head

theorem Built.existentials {rule : HornRule} (h : rule.Built) :
    rule.existentials = headOnly rule.body rule.head := by
  obtain ⟨label, body, head, rfl⟩ := h
  rfl

/-- A rule made from atoms names no blank node. -/
theorem Built.isBlank_eq_false {rule : HornRule} (h : rule.Built) {atom : Triple}
    (hatom : atom ∈ rule.body ++ rule.head) {x : Term} (hx : x ∈ atom.terms) : x.isBlank = false := by
  obtain ⟨label, body, head, rfl⟩ := h
  rw [show (ofAtoms label body head).body ++ (ofAtoms label body head).head =
    (body ++ head).map (·.map withoutBlank) from (List.map_append ..).symm] at hatom
  obtain ⟨old, _, rfl⟩ := List.mem_map.mp hatom
  obtain ⟨y, _, rfl⟩ := Triple.mem_terms_map.mp hx
  cases y <;> rfl

/-- Built anew from its atoms, with any label, the rule is the same. -/
theorem Built.ofAtoms_eq {rule : HornRule} (h : rule.Built) (label : String) :
    ofAtoms label rule.body rule.head = { rule with label } := by
  rw [ofAtoms_of_not_isBlank
    (fun t ht x hx => h.isBlank_eq_false (List.mem_append_left _ ht) hx)
    (fun t ht x hx => h.isBlank_eq_false (List.mem_append_right _ ht) hx), ← h.existentials]

theorem Built.normalized_eq {rule : HornRule} (h : rule.Built) : rule.normalized = rule :=
  h.ofAtoms_eq rule.label

/-! ### Truth -/

/-- The rule is true: its head's atoms are if its body's are. -/
def Holds (truth : Triple → Prop) (rule : HornRule) : Prop :=
  (∀ t ∈ rule.body, truth t) → ∀ t ∈ rule.head, truth t

end HornReasoner.HornRule
