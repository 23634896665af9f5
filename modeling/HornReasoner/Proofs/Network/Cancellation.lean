import HornReasoner.Proofs.Network.History

/-! The cancellation flag.

Only the flag's owners set it: neither an activation nor a call changes it
(`cancellation_perform`, `cancellation_addRules`). A feed is cancelled exactly if somebody asks for
it before one of its facts (`feed_cancelled_iff`), and a batch without variables that nobody
interrupts is taken as a whole (`feed_ok`). -/
namespace HornReasoner.Network

variable {net net' : Network} {budget : Nat}

/-! ### Activations -/

theorem cancellation_leftActivate (net : Network) (id : BetaId) (i : Instantiation) :
    (net.leftActivate id i).cancellation = net.cancellation := by
  unfold leftActivate
  split
  · rfl
  · dsimp only
    split <;> rfl

theorem cancellation_rightActivate (net : Network) (id : BetaId) (m : Match) :
    (net.rightActivate id m).cancellation = net.cancellation := by
  unfold rightActivate
  split <;> rfl

theorem cancellation_assertHead (b : Binding) (j : Justification) (net : Network)
    (pattern : Triple) : (net.assertHead b j pattern).cancellation = net.cancellation := by
  unfold assertHead assertDerived
  split
  · split
    · split <;> rfl
    · rfl
  · rfl

theorem cancellation_fire (net : Network) (id : ProductionId) (i : Instantiation) :
    (net.fire id i).cancellation = net.cancellation := by
  unfold fire
  split
  · rfl
  · refine List.foldlRecOn (motive := fun other : Network => other.cancellation = net.cancellation)
      _ _ rfl ?_
    exact fun other hother pattern _ => (cancellation_assertHead _ _ other pattern).trans hother

theorem cancellation_perform (net : Network) (a : Activation) :
    (net.perform a).cancellation = net.cancellation := by
  cases a with
  | fact t => rfl
  | left id i => exact cancellation_leftActivate net id i
  | right id m => exact cancellation_rightActivate net id m
  | fire id i => exact cancellation_fire net id i

/-! ### Runs -/

theorem cancellation_drain (h : drain budget net = some net') :
    net'.cancellation = net.cancellation := by
  induction budget generalizing net with
  | zero =>
    rw [drain] at h
    split at h
    · cases h
      rfl
    · cases h
  | succ budget ih =>
    rw [drain] at h
    split at h
    · cases h
      rfl
    · exact (ih h).trans (cancellation_perform _ _)

theorem cancellation_run {a : Activation} (h : net.run budget a = some net') :
    net'.cancellation = net.cancellation :=
  (cancellation_drain h).trans rfl

theorem cancellation_activate {added : List ProductionId}
    (h : net.activate budget added = some net') : net'.cancellation = net.cancellation :=
  activate_keeps cancellation_run (fun _ => rfl) h

/-! ### Rules -/

theorem cancellation_compile (net : Network) (rule : HornRule) :
    (net.compile rule).1.cancellation = net.cancellation :=
  (congrArg Network.cancellation (net.contents_compile rule) :)

theorem cancellation_compileAll (net : Network) (report : BuildReport) (rules : List HornRule) :
    (net.compileAll report rules).1.cancellation = net.cancellation :=
  (congrArg Network.cancellation (net.contents_compileAll report rules) :)

theorem cancellation_addRules {rules : List HornRule} {report : BuildReport}
    (h : net.addRules budget rules = some (net', report)) :
    net'.cancellation = net.cancellation := by
  obtain ⟨final, hfinal, heq⟩ := Option.map_eq_some_iff.mp h
  cases heq
  exact (cancellation_activate hfinal).trans (cancellation_compileAll net {} rules)

/-! ### Facts -/

theorem cancellation_feed {facts : List Triple} {stop : Readings}
    {result : Except FeedError FeedReport} (h : net.feed budget facts stop = some (net', result)) :
    net'.cancellation = net.cancellation :=
  feed_keeps (P := fun other => other.cancellation = net.cancellation)
    (fun _ _ _ hother hrun => (cancellation_run hrun).trans hother) rfl h

/-- **A batch without variables is taken as a whole unless somebody asks to stop.** -/
theorem feed_ok {facts : List Triple} {stop : Readings} {result : Except FeedError FeedReport}
    (hfree : ∀ t ∈ facts, t.hasVariables = false) (hclear : ∀ k < facts.length, stop k = false)
    (h : net.feed budget facts stop = some (net', result)) : ∃ report, result = .ok report := by
  cases result with
  | ok report => exact ⟨report, rfl⟩
  | error e =>
    rcases feed_eq_error_iff.mp h with ⟨bad, hbad, -⟩ | ⟨-, k, hk, hstop, -⟩
    · cases (find?_eq_none_iff.mpr hfree).symm.trans hbad
    · cases hstop.asked.symm.trans (hclear k hk)

/-- **A feed that was cancelled before takes none of its facts.** -/
theorem feed_cancelled {facts : List Triple} {stop : Readings} (hstop : stop 0 = true)
    (hfacts : facts ≠ []) (hfree : ∀ t ∈ facts, t.hasVariables = false) (budget : Nat) :
    net.feed budget facts stop = some (net, .error (.cancelled 0 facts.length)) :=
  feed_eq_error_iff.mpr (.inr ⟨hfree, 0, List.length_pos_iff.mpr hfacts,
    ⟨hstop, fun j hj => absurd hj (Nat.not_lt_zero j)⟩, rfl, _, by rw [List.take_zero]; rfl⟩)

/-- A feed reports that it was cancelled exactly if somebody asks to stop before one of its
facts. -/
theorem feed_cancelled_iff {facts : List Triple} {stop : Readings}
    {result : Except FeedError FeedReport} (h : net.feed budget facts stop = some (net', result)) :
    (∃ processed total, result = .error (.cancelled processed total)) ↔
      (∃ k < facts.length, stop k = true) ∧ ∀ t ∈ facts, t.hasVariables = false := by
  constructor
  · rintro ⟨processed, total, rfl⟩
    rcases feed_eq_error_iff.mp h with ⟨_, _, ⟨⟩, _⟩ | ⟨hfree, k, hk, hstop, _⟩
    exact ⟨⟨k, hk, hstop.asked⟩, hfree⟩
  · rintro ⟨⟨k, hk, hasked⟩, hfree⟩
    cases result with
    | ok report => cases hasked.symm.trans ((feed_eq_ok_iff.mp h).2.1 k hk)
    | error e =>
      rcases feed_eq_error_iff.mp h with ⟨bad, hbad, -⟩ | ⟨-, processed, -, -, rfl, -⟩
      · cases (find?_eq_none_iff.mpr hfree).symm.trans hbad
      · exact ⟨processed, _, rfl⟩

/-! ### Resets -/

theorem cancellation_reset (h : net.reset budget = some net') :
    net'.cancellation = net.cancellation := by
  unfold reset at h
  exact (runs_keep cancellation_run h).trans rfl

end HornReasoner.Network
