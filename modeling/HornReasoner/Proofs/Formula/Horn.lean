import HornReasoner.Proofs.Formula.Meaning

/-! Clauses as Horn rules.

Taking a clause apart keeps what it says: a true clause has true rules, and rules without a
diagnostic say all that the clause says. Both are proved over one truth value of triples;
what is left to show of a rule's atoms and variables is an invariant of the taking apart
(`split_forall`). -/
namespace HornReasoner

namespace Formula

theorem sizes_append (fs gs : List Formula) : sizes (fs ++ gs) = sizes fs + sizes gs := by
  induction fs with
  | nil => simp [sizes]
  | cons f rest ih => simp [sizes, ih, Nat.add_assoc]

theorem size_pos (f : Formula) : 0 < f.size := by
  cases f <;> simp [size]

/-! ### Guarded variables -/

mutual

/-- The variables of a head are among `vs`, except behind an implication, where every
alternative of its body has them. -/
def Guarded (vs : List Variable) : Formula → Prop
  | atom t => t.vars ⊆ vs
  | conj parts => EachGuarded vs parts
  | disj parts => EachGuarded vs parts
  | exist _ inner => inner.Guarded vs
  | implies body head => ∃ ws : List Variable, head.Guarded ws ∧
    ∀ options, body.alternatives = .ok options → ∀ alt ∈ options, ws ⊆ alt.flatMap Triple.vars

def EachGuarded (vs : List Variable) : List Formula → Prop
  | [] => True
  | part :: rest => part.Guarded vs ∧ EachGuarded vs rest

end

variable {vs : List Variable}

theorem eachGuarded_iff {parts : List Formula} :
    EachGuarded vs parts ↔ ∀ part ∈ parts, part.Guarded vs := by
  induction parts with
  | nil => simp [EachGuarded]
  | cons part rest ih => simp [EachGuarded, ih]

@[simp] theorem guarded_atom {t : Triple} : (atom t).Guarded vs ↔ t.vars ⊆ vs := by
  simp [Guarded]

@[simp] theorem guarded_conj {parts : List Formula} :
    (conj parts).Guarded vs ↔ ∀ part ∈ parts, part.Guarded vs := by
  rw [Guarded, eachGuarded_iff]

@[simp] theorem guarded_disj {parts : List Formula} :
    (disj parts).Guarded vs ↔ ∀ part ∈ parts, part.Guarded vs := by
  rw [Guarded, eachGuarded_iff]

@[simp] theorem guarded_exist {vars : List Variable} {inner : Formula} :
    (exist vars inner).Guarded vs ↔ inner.Guarded vs := by
  rw [Guarded]

theorem guarded_implies {body head : Formula} :
    (implies body head).Guarded vs ↔ ∃ ws : List Variable, head.Guarded ws ∧
      ∀ options, body.alternatives = .ok options →
        ∀ alt ∈ options, ws ⊆ alt.flatMap Triple.vars := by
  rw [Guarded]

@[simp] theorem guarded_and {parts : List Formula} :
    (and parts).Guarded vs ↔ ∀ part ∈ parts, part.Guarded vs := by
  unfold and
  split <;> simp

@[simp] theorem guarded_or {parts : List Formula} :
    (or parts).Guarded vs ↔ ∀ part ∈ parts, part.Guarded vs := by
  unfold or
  split <;> simp

theorem Guarded.conjuncts {f : Formula} (h : f.Guarded vs) {atoms : List Triple}
    (hatoms : f.conjuncts? = some atoms) : ∀ t ∈ atoms, t.vars ⊆ vs := by
  induction f generalizing atoms with
  | atom t =>
    cases hatoms
    simpa using h
  | conj parts ih =>
    rw [guarded_conj] at h
    rw [conjuncts?] at hatoms
    induction parts generalizing atoms with
    | nil =>
      cases hatoms
      simp
    | cons part rest ihl =>
      obtain ⟨first, others, hfirst, hothers, rfl⟩ := conjunctsOf_cons hatoms
      obtain ⟨ihp, ihr⟩ := List.forall_mem_cons.mp ih
      obtain ⟨hp, hr⟩ := List.forall_mem_cons.mp h
      exact List.forall_mem_append.mpr ⟨ihp hp hfirst, ihl ihr hr hothers⟩
  | disj parts _ => cases hatoms
  | exist vars inner ih => exact ih (guarded_exist.mp h) hatoms
  | implies body head _ _ => cases hatoms

end Formula

namespace Clause

open Formula

variable {truth : Triple → Prop}

/-! ### Heads -/

/-- The parts that taking an implication apart gives at once. -/
def Implication.emitted : Implication → List Part
  | ⟨.atom t, body⟩ => [.rule [t] body]
  | ⟨.conj _, _⟩ => []
  | ⟨.implies _ _, _⟩ => []
  | ⟨.disj parts, _⟩ => [.dropped (.disjunctiveHead (.disj parts))]
  | ⟨.exist _ inner, body⟩ =>
    match inner.conjuncts? with
    | some atoms => [.rule atoms body]
    | none => [.dropped (.existentialHead inner)]

/-- The implications it leaves for later. -/
def Implication.remaining : Implication → List Implication
  | ⟨.conj parts, body⟩ => parts.map fun part => ⟨part, body⟩
  | ⟨.implies inner head, body⟩ => [⟨head, .and [body, inner]⟩]
  | ⟨.atom _, _⟩ => []
  | ⟨.disj _, _⟩ => []
  | ⟨.exist _ _, _⟩ => []

/-- One step of taking apart. -/
theorem split_cons (fuel : Nat) (i : Implication) (rest : List Implication) :
    split (fuel + 1) (i :: rest) = i.emitted ++ split fuel (rest ++ i.remaining) := by
  obtain ⟨head, body⟩ := i
  cases head with
  | atom t => simp [split, Implication.emitted, Implication.remaining]
  | conj parts => simp [split, Implication.emitted, Implication.remaining]
  | implies inner head => simp [split, Implication.emitted, Implication.remaining]
  | disj parts => simp [split, Implication.emitted, Implication.remaining]
  | exist vars inner =>
    cases hconjuncts : inner.conjuncts? <;>
      simp [split, Implication.emitted, Implication.remaining, hconjuncts]

/-- A step removes a node of the head. -/
theorem Implication.sizes_remaining (i : Implication) :
    sizes (i.remaining.map fun j => j.head) < i.head.size := by
  obtain ⟨head, body⟩ := i
  cases head with
  | conj parts =>
    simp only [remaining, List.map_map, Function.comp_def, List.map_id', size]
    omega
  | implies inner head =>
    simp only [remaining, List.map_singleton, sizes, size]
    omega
  | atom t | disj parts | exist vars inner => exact size_pos _

/-- What holds of the implications in a queue, and stays when one is taken apart, gives what
holds of the parts. -/
theorem split_forall {I : Implication → Prop} {J : List Triple → Formula → Prop}
    (atom : ∀ t body, I ⟨.atom t, body⟩ → J [t] body)
    (conj : ∀ parts body, I ⟨.conj parts, body⟩ → ∀ part ∈ parts, I ⟨part, body⟩)
    (implies : ∀ inner head body, I ⟨.implies inner head, body⟩ → I ⟨head, .and [body, inner]⟩)
    (exist : ∀ vars inner body atoms, I ⟨.exist vars inner, body⟩ →
      inner.conjuncts? = some atoms → J atoms body) (fuel : Nat) {queue : List Implication}
    (hqueue : ∀ i ∈ queue, I i) :
    ∀ head body, .rule head body ∈ split fuel queue → J head body := by
  have hremaining : ∀ i, I i → ∀ j ∈ i.remaining, I j := by
    rintro ⟨head, body⟩ hi j hj
    cases head with
    | conj parts =>
      obtain ⟨part, hpart, rfl⟩ := List.mem_map.mp hj
      exact conj parts body hi part hpart
    | implies inner head =>
      rw [List.mem_singleton.mp hj]
      exact implies inner head body hi
    | atom t | disj parts | exist vars inner => cases hj
  have hemitted : ∀ i, I i → ∀ head body, .rule head body ∈ i.emitted → J head body := by
    rintro ⟨head, body⟩ hi atoms b hmem
    cases head with
    | atom t =>
      cases List.mem_singleton.mp hmem
      exact atom t body hi
    | exist vars inner =>
      cases hconjuncts : inner.conjuncts? with
      | some others =>
        simp only [Implication.emitted, hconjuncts] at hmem
        cases List.mem_singleton.mp hmem
        exact exist vars inner body _ hi hconjuncts
      | none =>
        simp only [Implication.emitted, hconjuncts] at hmem
        cases List.mem_singleton.mp hmem
    | disj parts => cases List.mem_singleton.mp hmem
    | conj parts | implies inner head => cases hmem
  induction fuel generalizing queue with
  | zero => simp [split]
  | succ fuel ih =>
    cases queue with
    | nil => simp [split]
    | cons i rest =>
      obtain ⟨hi, hrest⟩ := List.forall_mem_cons.mp hqueue
      intro head body hmem
      rw [split_cons] at hmem
      rcases List.mem_append.mp hmem with hmem | hmem
      · exact hemitted i hi head body hmem
      · exact ih (List.forall_mem_append.mpr ⟨hrest, hremaining i hi⟩) head body hmem

/-- The implication is true. -/
def Implication.Holds (truth : Triple → Prop) (i : Implication) : Prop :=
  i.body.Holds truth → i.head.Holds truth

/-- An implication is true where one step of it drops nothing and gives only what is true. -/
theorem Implication.holds_of_step {i : Implication} (hdropped : ∀ o, .dropped o ∉ i.emitted)
    (hemitted : ∀ head body, .rule head body ∈ i.emitted → body.Holds truth → ∀ t ∈ head, truth t)
    (hremaining : ∀ j ∈ i.remaining, j.Holds truth) : i.Holds truth := by
  obtain ⟨head, body⟩ := i
  intro (hbody : body.Holds truth)
  show head.Holds truth
  cases head with
  | atom t => exact holds_atom.mpr (hemitted [t] body (List.mem_singleton_self _) hbody t (by simp))
  | conj parts =>
    refine holds_conj.mpr fun part hpart => ?_
    exact hremaining ⟨part, body⟩ (List.mem_map.mpr ⟨part, hpart, rfl⟩) hbody
  | implies inner head =>
    refine holds_implies.mpr fun hinner => ?_
    apply hremaining _ (List.mem_singleton_self _)
    simpa using ⟨hbody, hinner⟩
  | disj parts => exact absurd (List.mem_singleton_self _) (hdropped _)
  | exist vars inner =>
    refine holds_exist.mpr ?_
    cases hconjuncts : inner.conjuncts? with
    | some atoms =>
      refine (holds_iff_conjuncts hconjuncts).mpr (hemitted atoms body ?_ hbody)
      simp [emitted, hconjuncts]
    | none =>
      refine absurd ?_ (hdropped (.existentialHead inner))
      simp [emitted, hconjuncts]

/-- If nothing is dropped and all parts are true, so is what they were taken from. -/
theorem holds_of_split {fuel : Nat} {queue : List Implication}
    (hfuel : sizes (queue.map fun i => i.head) ≤ fuel)
    (hdropped : ∀ obstacle, .dropped obstacle ∉ split fuel queue)
    (hparts : ∀ head body, .rule head body ∈ split fuel queue →
      body.Holds truth → ∀ t ∈ head, truth t) : ∀ i ∈ queue, i.Holds truth := by
  induction fuel generalizing queue with
  | zero =>
    cases queue with
    | nil => simp
    | cons i rest =>
      have hpos := i.head.size_pos
      rw [List.map_cons, sizes] at hfuel
      omega
  | succ fuel ih =>
    cases queue with
    | nil => simp
    | cons i rest =>
      rw [split_cons] at hdropped hparts
      have hall : ∀ j ∈ rest ++ i.remaining, j.Holds truth := by
        refine ih ?_ (fun o ho => hdropped o (List.mem_append_right _ ho))
          fun head body hmem => hparts head body (List.mem_append_right _ hmem)
        have hsize := i.sizes_remaining
        rw [List.map_cons, sizes] at hfuel
        rw [List.map_append, sizes_append]
        omega
      obtain ⟨hrest, hremaining⟩ := List.forall_mem_append.mp hall
      have hi := i.holds_of_step (fun o ho => hdropped o (List.mem_append_left _ ho))
        (fun head body hmem => hparts head body (List.mem_append_left _ hmem)) hremaining
      exact List.forall_mem_cons.mpr ⟨hi, hrest⟩

/-! ### Bodies -/

/-- The rules of a part: its head behind each alternative of its body. -/
theorem Part.mem_candidates {truth : Bool} {part : Part} {head body : List Triple}
    (h : .rule head body ∈ part.candidates truth) : ∃ whole options, part = .rule head whole ∧
      whole.alternatives = .ok options ∧ body ∈ options ∧ (body = [] → truth = true) := by
  cases part with
  | dropped obstacle => simp [candidates] at h
  | rule atoms whole =>
    rw [candidates] at h
    split at h
    · simp at h
    · split at h
      · simp at h
      · simp at h
      · rename_i options _ halternatives
        obtain ⟨alt, halt, heq⟩ := List.mem_map.mp h
        split at heq <;> rename_i hempty
        · cases heq
        · cases heq
          refine ⟨whole, options, rfl, halternatives, halt, fun hnil => ?_⟩
          simpa [hnil] using hempty

/-- A part of which nothing is dropped is a rule for each alternative of its body. -/
theorem Part.candidates_of_not_dropped {truth : Bool} {part : Part}
    (h : ∀ obstacle, .dropped obstacle ∉ part.candidates truth) : ∃ head whole options,
      part = .rule head whole ∧ whole.alternatives = .ok options ∧
        ∀ body ∈ options, .rule head body ∈ part.candidates truth := by
  cases part with
  | dropped obstacle => simp [candidates] at h
  | rule head whole =>
    rw [candidates] at h ⊢
    split at h
    · simp at h
    · split at h
      · simp at h
      · simp at h
      · rename_i hcount _ options _ halternatives
        refine ⟨head, whole, options, rfl, halternatives, fun body hbody => ?_⟩
        rw [if_neg hcount]
        refine List.mem_map.mpr ⟨body, hbody, ?_⟩
        split
        · rename_i hempty
          refine absurd (List.mem_map.mpr ⟨body, hbody, ?_⟩) (h (.alwaysTrue whole))
          rw [if_pos hempty]
        · rfl

/-! ### Rules -/

theorem mem_candidates {c : Clause} {candidate : Candidate} :
    candidate ∈ c.candidates ↔ ∃ part ∈ c.parts, candidate ∈ part.candidates c.body.isEmptyConj :=
  List.mem_flatMap

/-- The clause is true. -/
def Holds (truth : Triple → Prop) (c : Clause) : Prop := c.body.Holds truth → c.head.Holds truth

/-- Where a clause is true, so are its candidates. -/
theorem Holds.candidates {c : Clause} (h : c.Holds truth) {head body : List Triple}
    (hmem : .rule head body ∈ c.candidates) (hbody : ∀ t ∈ body, truth t) :
    ∀ t ∈ head, truth t := by
  obtain ⟨part, hpart, hcandidate⟩ := mem_candidates.mp hmem
  obtain ⟨whole, options, rfl, halternatives, halt, _⟩ := Part.mem_candidates hcandidate
  have htrue : whole.Holds truth → ∀ t ∈ head, truth t := by
    refine split_forall (I := fun i => i.Holds truth)
      (J := fun head whole => whole.Holds truth → ∀ t ∈ head, truth t) ?_ ?_ ?_ ?_ _ ?_ _ _ hpart
    · intro t b hi hb
      simpa using hi hb
    · intro parts b hi part hpart hb
      exact holds_conj.mp (hi hb) part hpart
    · intro inner head b hi hb
      obtain ⟨hb, hinner, _⟩ : b.Holds truth ∧ inner.Holds truth ∧ True := by simpa using hb
      exact holds_implies.mp (hi hb) hinner
    · intro vars inner b atoms hi hconjuncts hb
      exact (holds_iff_conjuncts hconjuncts).mp (holds_exist.mp (hi hb))
    · exact List.forall_mem_singleton.mpr h
  exact htrue ((holds_iff_alternatives halternatives).mpr ⟨body, halt, hbody⟩)

/-- Where all candidates are true, and none is dropped, the clause is true. -/
theorem holds_of_candidates {c : Clause} (hdropped : ∀ obstacle, .dropped obstacle ∉ c.candidates)
    (h : ∀ head body, .rule head body ∈ c.candidates →
      (∀ t ∈ body, truth t) → ∀ t ∈ head, truth t) : c.Holds truth := by
  have hsolid : ∀ part ∈ c.parts, ∀ obstacle,
      .dropped obstacle ∉ part.candidates c.body.isEmptyConj :=
    fun part hpart o ho => hdropped o (mem_candidates.mpr ⟨part, hpart, ho⟩)
  have hall : ∀ i ∈ [(⟨c.head, c.body⟩ : Implication)], i.Holds truth := by
    apply holds_of_split (by simp [sizes] : _ ≤ c.head.size + 1)
    · intro obstacle hpart
      exact hsolid _ hpart obstacle (by simp [Part.candidates])
    intro head whole hpart hwhole
    obtain ⟨_, _, options, heq, halternatives, hall⟩ :=
      Part.candidates_of_not_dropped (hsolid _ hpart)
    cases heq
    obtain ⟨body, hbody, htrue⟩ := (holds_iff_alternatives halternatives).mp hwhole
    exact h head body (mem_candidates.mpr ⟨_, hpart, hall body hbody⟩) htrue
  exact hall _ (List.mem_singleton_self _)

/-- Candidates have atoms of the clause only. -/
theorem candidates_atoms {c : Clause} {p : Triple → Prop} (hhead : c.head.AllAtoms p)
    (hbody : c.body.AllAtoms p) {head body : List Triple} (h : .rule head body ∈ c.candidates) :
    (∀ t ∈ head, p t) ∧ ∀ t ∈ body, p t := by
  obtain ⟨part, hpart, hcandidate⟩ := mem_candidates.mp h
  obtain ⟨whole, options, rfl, halternatives, halt, _⟩ := Part.mem_candidates hcandidate
  have hatoms : (∀ t ∈ head, p t) ∧ whole.AllAtoms p := by
    refine split_forall (I := fun i => i.head.AllAtoms p ∧ i.body.AllAtoms p)
      (J := fun head whole => (∀ t ∈ head, p t) ∧ whole.AllAtoms p) ?_ ?_ ?_ ?_ _ ?_ _ _ hpart
    · intro t b hi
      simpa using hi
    · intro parts b hi part hpart
      exact ⟨allAtoms_conj.mp hi.1 part hpart, hi.2⟩
    · intro inner head b hi
      obtain ⟨hinner, hhead⟩ := allAtoms_implies.mp hi.1
      exact ⟨hhead, by simpa using ⟨hi.2, hinner⟩⟩
    · intro vars inner b atoms hi hconjuncts
      exact ⟨(allAtoms_exist.mp hi.1).conjuncts hconjuncts, hi.2⟩
    · simpa using ⟨hhead, hbody⟩
  exact ⟨hatoms.1, hatoms.2.alternatives halternatives body halt⟩

/-- A candidate has a body unless the clause was written without one. -/
theorem body_ne_nil_of_candidate {c : Clause} (hkept : c.body.isEmptyConj = false)
    {head body : List Triple} (h : .rule head body ∈ c.candidates) : body ≠ [] := by
  obtain ⟨part, _, hcandidate⟩ := mem_candidates.mp h
  obtain ⟨whole, options, _, _, _, hempty⟩ := Part.mem_candidates hcandidate
  intro hnil
  have htrue := hempty hnil
  rw [hkept] at htrue
  cases htrue

/-- If each alternative of the body has the variables of the head, except one without atoms,
no variable of a rule's head is missing in its body. -/
theorem candidates_guarded {c : Clause} (hkept : c.body.isEmptyConj = false) {vs : List Variable}
    (hhead : c.head.Guarded vs) (hbody : ∀ options, c.body.alternatives = .ok options →
      ∀ alt ∈ options, alt ≠ [] → vs ⊆ alt.flatMap Triple.vars) {head body : List Triple}
    (h : .rule head body ∈ c.candidates) : ∀ t ∈ head, t.vars ⊆ body.flatMap Triple.vars := by
  obtain ⟨part, hpart, hcandidate⟩ := mem_candidates.mp h
  obtain ⟨whole, options, rfl, halternatives, halt, _⟩ := Part.mem_candidates hcandidate
  have hguarded : ∃ vs : List Variable, (∀ t ∈ head, t.vars ⊆ vs) ∧
      ∀ options, whole.alternatives = .ok options → ∀ alt ∈ options, alt ≠ [] →
        vs ⊆ alt.flatMap Triple.vars := by
    refine split_forall (I := fun i => ∃ vs, i.head.Guarded vs ∧
        ∀ options, i.body.alternatives = .ok options → ∀ alt ∈ options, alt ≠ [] →
          vs ⊆ alt.flatMap Triple.vars)
      (J := fun head whole => ∃ vs : List Variable, (∀ t ∈ head, t.vars ⊆ vs) ∧
        ∀ options, whole.alternatives = .ok options → ∀ alt ∈ options, alt ≠ [] →
          vs ⊆ alt.flatMap Triple.vars) ?_ ?_ ?_ ?_ _ ?_ _ _ hpart
    · intro t b ⟨vs, ht, hb⟩
      exact ⟨vs, by simpa using ht, hb⟩
    · intro parts b ⟨vs, hparts, hb⟩ part hpart
      exact ⟨vs, guarded_conj.mp hparts part hpart, hb⟩
    · intro inner head b ⟨vs, himplies, _⟩
      -- the atoms of the inner body are enough, also where the outer one has none
      obtain ⟨ws, hhead, hws⟩ := guarded_implies.mp himplies
      refine ⟨ws, hhead, fun options hoptions alt halt _ => ?_⟩
      obtain ⟨firsts, seconds, _, hinner, happend⟩ := alternatives_and_pair hoptions
      obtain ⟨first, _, second, hsecond, rfl⟩ := happend alt halt
      rw [List.flatMap_append]
      exact List.subset_append_of_subset_right _ (hws seconds hinner second hsecond)
    · intro vars inner b atoms ⟨vs, hinner, hb⟩ hconjuncts
      exact ⟨vs, (guarded_exist.mp hinner).conjuncts hconjuncts, hb⟩
    · exact List.forall_mem_singleton.mpr ⟨vs, hhead, hbody⟩
  obtain ⟨vs, hvars, hsubset⟩ := hguarded
  have hne := body_ne_nil_of_candidate hkept h
  exact fun t ht => List.Subset.trans (hvars t ht) (hsubset options halternatives body halt hne)

/-! ### Normal forms -/

/-- The rules of a clause are its candidates. -/
theorem foldl_record (c : Clause) (candidates : List Candidate) (n : Normalized) :
    (∀ rule ∈ (candidates.foldl c.record n).rules, rule ∈ n.rules ∨ ∃ label head body,
      .rule head body ∈ candidates ∧ rule = .ofAtoms label body head) ∧
    n.rules ⊆ (candidates.foldl c.record n).rules ∧
    (∀ head body, .rule head body ∈ candidates →
      ∃ label, .ofAtoms label body head ∈ (candidates.foldl c.record n).rules) ∧
    ((candidates.foldl c.record n).dropped = [] →
      n.dropped = [] ∧ ∀ obstacle, .dropped obstacle ∉ candidates) := by
  induction candidates generalizing n with
  | nil => simp
  | cons candidate rest ih =>
    obtain ⟨hfrom, hsubset, hto, hdropped⟩ := ih (c.record n candidate)
    rw [List.foldl_cons]
    cases candidate with
    | rule head body =>
      refine ⟨fun rule hrule => ?_, fun rule hrule => ?_, fun h b hmem => ?_, fun hnone => ?_⟩
      · rcases hfrom rule hrule with hrule | ⟨label, h, b, hmem, rfl⟩
        · rcases List.mem_append.mp hrule with hrule | hrule
          · exact .inl hrule
          · exact .inr ⟨_, head, body, List.mem_cons_self .., List.mem_singleton.mp hrule⟩
        · exact .inr ⟨label, h, b, List.mem_cons_of_mem _ hmem, rfl⟩
      · exact hsubset (List.mem_append_left _ hrule)
      · rcases List.mem_cons.mp hmem with heq | hmem
        · cases heq
          exact ⟨_, hsubset (List.mem_append_right _ (List.mem_singleton_self _))⟩
        · exact hto h b hmem
      · obtain ⟨hn, hrest⟩ := hdropped hnone
        refine ⟨hn, fun obstacle hmem => ?_⟩
        rcases List.mem_cons.mp hmem with heq | hmem
        · cases heq
        · exact hrest obstacle hmem
    | dropped obstacle =>
      refine ⟨fun rule hrule => ?_, hsubset, fun h b hmem => ?_, fun hnone => ?_⟩
      · rcases hfrom rule hrule with hrule | ⟨label, h, b, hmem, rfl⟩
        · exact .inl hrule
        · exact .inr ⟨label, h, b, List.mem_cons_of_mem _ hmem, rfl⟩
      · rcases List.mem_cons.mp hmem with heq | hmem
        · cases heq
        · exact hto h b hmem
      · have hn := (hdropped hnone).1
        simp [record] at hn

theorem mem_normalize_rules {c : Clause} {rule : HornRule} (h : rule ∈ c.normalize.rules) :
    ∃ label head body, .rule head body ∈ c.candidates ∧ rule = .ofAtoms label body head := by
  obtain ⟨hfrom, _⟩ := foldl_record c c.candidates {}
  exact (hfrom rule h).resolve_left List.not_mem_nil

theorem exists_mem_normalize_rules {c : Clause} {head body : List Triple}
    (h : .rule head body ∈ c.candidates) :
    ∃ label, .ofAtoms label body head ∈ c.normalize.rules := by
  obtain ⟨_, _, hto, _⟩ := foldl_record c c.candidates {}
  exact hto head body h

theorem not_dropped_of_normalize {c : Clause} (h : c.normalize.dropped = []) :
    ∀ obstacle, .dropped obstacle ∉ c.candidates := by
  obtain ⟨_, _, _, hdropped⟩ := foldl_record c c.candidates {}
  exact (hdropped h).2

end Clause

end HornReasoner
