import HornReasoner.Proofs.Network.Rebuild

/-! Calls that are repeated.

A rule is decided by a network that would drop it or has its signature. What was compiled
once is decided and stays so, thus a batch of rules that is added again adds nothing
(`addRules_again`); a batch of facts that was taken is known, thus feeding it again changes
nothing (`feed_again`). Neither depends on how the network was made. -/
namespace HornReasoner.Network

variable {net net' : Network} {budget : Nat}

/-! ### Rules -/

/-- The network drops the rule or has one with its signature. -/
def Decided (net : Network) (rule : HornRule) : Prop :=
  rule.head = [] ∨ (∃ fault, plan net.builtins rule.body = .error fault) ∨
    (net.signatureIndex.lookup (.of rule)).isSome

/-- `net'` has the signatures of `net` and maybe more. -/
structure Settles (net net' : Network) : Prop where
  builtins : net'.builtins = net.builtins
  signed : ∀ sig, (net.signatureIndex.lookup sig).isSome → (net'.signatureIndex.lookup sig).isSome

theorem Settles.refl (net : Network) : Settles net net := ⟨rfl, fun _ h => h⟩

theorem Settles.trans {net'' : Network} (h : Settles net net') (h' : Settles net' net'') :
    Settles net net'' :=
  ⟨h'.builtins.trans h.builtins, fun sig hsig => h'.signed sig (h.signed sig hsig)⟩

theorem Settles.of_skeleton_eq (h : net'.skeleton = net.skeleton) : Settles net net' where
  builtins := builtins_of_skeleton_eq h
  signed sig hsig := by
    rw [← signatureIndex_skeleton, h]
    exact hsig

theorem Decided.settles {rule : HornRule} (h : net.Decided rule) (hs : Settles net net') :
    net'.Decided rule := by
  rcases h with hhead | hplan | hsigned
  · exact .inl hhead
  · exact .inr (.inl (hs.builtins ▸ hplan))
  · exact .inr (.inr (hs.signed _ hsigned))

/-- Compiling a rule that is decided changes nothing. -/
theorem Decided.compile {rule : HornRule} (h : net.Decided rule) :
    (net.compile rule).1 = net ∧ (net.compile rule).2.ids = [] := by
  have hcompiles := net.compile_compiles rule
  generalize net.compile rule = out at hcompiles
  have hnot : rule.head ≠ [] → ∀ {steps}, plan net.builtins rule.body = .ok steps →
      net.signatureIndex.lookup (.of rule) ≠ none := by
    intro hhead steps hplan hnone
    rcases h with hnil | ⟨fault, herror⟩ | hsigned
    · exact hhead hnil
    · cases hplan.symm.trans herror
    · rw [hnone] at hsigned
      cases hsigned
  cases hcompiles with
  | dropped | duplicate => exact ⟨rfl, rfl⟩
  | truth hhead hplan hnew => exact absurd hnew (hnot hhead hplan)
  | conditional hhead hplan hnew => exact absurd hnew (hnot hhead hplan)

/-- A production signs its rule. -/
theorem settles_addProduction (net : Network) (rule : HornRule) (terminal : Option BetaId) :
    Settles net (net.addProduction rule terminal).1 ∧
      ((net.addProduction rule terminal).1.signatureIndex.lookup (.of rule)).isSome := by
  rw [addProduction_eq]
  refine ⟨⟨rfl, fun sig hsig => ?_⟩, ?_⟩
  · rw [List.lookup_append, Option.isSome_or, hsig, Bool.true_or]
  · rw [List.lookup_append, Option.isSome_or]
    simp

/-- What was compiled is decided. -/
theorem decided_compile (net : Network) (rule : HornRule) :
    Settles net (net.compile rule).1 ∧ (net.compile rule).1.Decided rule := by
  have hcompiles := net.compile_compiles rule
  generalize net.compile rule = out at hcompiles
  cases hcompiles with
  | dropped hdropped => exact ⟨.refl net, hdropped.imp And.left fun hfault => .inl ⟨_, hfault⟩⟩
  | duplicate _ _ hfound => exact ⟨.refl net, .inr (.inr (Option.isSome_iff_exists.mpr ⟨_, hfound⟩))⟩
  | truth =>
    obtain ⟨hsettles, hsigned⟩ := settles_addProduction net rule none
    exact ⟨hsettles, .inr (.inr hsigned)⟩
  | @conditional steps grown beta _ _ _ _ hattach =>
    have hbare := net.bare_attachPlan steps
    rw [hattach] at hbare
    have hbuiltins : grown.builtins = net.builtins := (congrArg Network.builtins hbare :)
    have hindex : grown.signatureIndex = net.signatureIndex :=
      (congrArg Network.signatureIndex hbare :)
    obtain ⟨hsettles, hsigned⟩ := settles_addProduction grown rule (some beta)
    have hgrown : Settles net grown := ⟨hbuiltins, fun sig hsig => hindex ▸ hsig⟩
    exact ⟨hgrown.trans hsettles, .inr (.inr hsigned)⟩

theorem decided_compileAll (net : Network) (report : BuildReport) (rules : List HornRule) :
    Settles net (net.compileAll report rules).1 ∧
      ∀ rule ∈ rules, (net.compileAll report rules).1.Decided rule := by
  induction rules generalizing net report with
  | nil => exact ⟨.refl net, List.forall_mem_nil _⟩
  | cons rule rest ih =>
    obtain ⟨hsettles, hdecided⟩ := net.decided_compile rule
    obtain ⟨hrest, hall⟩ := ih (net.compile rule).1 (report.record (net.compile rule).2)
    exact ⟨hsettles.trans hrest, List.forall_mem_cons.mpr ⟨hdecided.settles hrest, hall⟩⟩

/-- Adding rules decides them. -/
theorem addRules_decided {rules : List HornRule} {report : BuildReport}
    (h : net.addRules budget rules = some (net', report)) :
    Settles net net' ∧ ∀ rule ∈ rules, net'.Decided rule := by
  obtain ⟨final, hfinal, heq⟩ := Option.map_eq_some_iff.mp h
  cases heq
  obtain ⟨hsettles, hall⟩ := net.decided_compileAll {} rules
  have hactivated : Settles (net.compileAll {} rules).1 net' :=
    .of_skeleton_eq (activate_keeps skeleton_run skeleton_cleared hfinal)
  exact ⟨hsettles.trans hactivated, fun rule hrule => (hall rule hrule).settles hactivated⟩

/-- **Rules that are decided add nothing.** No fact is looked at again. -/
theorem addRules_again {rules : List HornRule} (h : ∀ rule ∈ rules, net.Decided rule)
    (budget : Nat) : ∃ report, net.addRules budget rules = some (net, report) ∧ report.added = [] := by
  have hcompile : ∀ report : BuildReport, (net.compileAll report rules).1 = net ∧
      (net.compileAll report rules).2.added = report.added := by
    induction rules with
    | nil => exact fun _ => ⟨rfl, rfl⟩
    | cons rule rest ih =>
      intro report
      obtain ⟨hrule, hrest⟩ := List.forall_mem_cons.mp h
      obtain ⟨hnet, hids⟩ := hrule.compile
      obtain ⟨hnet', hadded⟩ := ih hrest (report.record (net.compile rule).2)
      rw [compileAll]
      dsimp only
      rw [hnet]
      refine ⟨hnet', hadded.trans ?_⟩
      cases hout : (net.compile rule).2 with
      | added id =>
        rw [hout] at hids
        cases hids
      | duplicate id | dropped diagnostic => rfl
  obtain ⟨hnet, hadded⟩ := hcompile {}
  refine ⟨(net.compileAll {} rules).2, ?_, hadded⟩
  unfold addRules
  dsimp only
  rw [hnet, hadded]
  rfl

/-! ### Facts -/

/-- What stays when heads are asserted stays in a run, as nothing else changes the facts. -/
theorem run_of_asserted {P : Graph → Graph → Prop}
    (hasserted : ∀ {net net' : Network} {news : List Triple}, Asserted net net' news →
      P net.workingMemory net.inferred → P net'.workingMemory net'.inferred)
    {a : Activation} (h : net.run budget a = some net') (hnet : P net.workingMemory net.inferred) :
    P net'.workingMemory net'.inferred := by
  have hstep : ∀ (other : Network) (a : Activation), P other.workingMemory other.inferred →
      P (other.perform a).workingMemory (other.perform a).inferred := by
    intro other a hother
    by_cases hfire : ∃ id i, a = .fire id i
    · obtain ⟨id, i, rfl⟩ := hfire
      rw [perform]
      cases hp : other.production? id with
      | none =>
        rw [fire, hp]
        exact hother
      | some p =>
        obtain ⟨s, fresh, news, hnews, _⟩ := fire_spec hp i
        exact hasserted hnews hother
    · have hsame := other.perform_same fun id i heq => hfire ⟨id, i, heq⟩
      rw [hsame.memory, hsame.inferred]
      exact hother
  let pending : Network := { net with agenda := a :: net.agenda }
  have hpending : P pending.workingMemory pending.inferred := hnet
  obtain ⟨_, hfinal, _⟩ := drain_induction
    (P := fun other _ => P other.workingMemory other.inferred)
    (fun _ _ a _ hother _ => hstep _ a hother) budget [] hpending h
  exact hfinal

/-- Facts that are known stay known. -/
theorem mem_run {a : Activation} (h : net.run budget a = some net') {t : Triple}
    (ht : t ∈ net.workingMemory.toList) : t ∈ net'.workingMemory.toList :=
  run_of_asserted (P := fun memory _ => t ∈ memory.toList)
    (fun hasserted ht => hasserted.memory ▸ List.mem_append_left _ ht) h ht

/-- A batch that went in is known. -/
theorem Feeds.mem {facts : List Triple} {asserted skipped : Nat}
    (h : Feeds budget net facts net' asserted skipped) :
    ∀ t ∈ facts, t ∈ net'.workingMemory.toList := by
  refine h.keeps (P := fun other fed => ∀ t ∈ fed, t ∈ other.workingMemory.toList)
    (fun other fed t hother ht => ?_) (fun other fed t next hother ht hrun u hu => ?_)
    (List.forall_mem_nil _)
  · exact List.forall_mem_append.mpr ⟨hother, List.forall_mem_singleton.mpr ht⟩
  · refine mem_run hrun (t := u) ?_
    rw [Graph.toList_insert, if_neg ht]
    rcases List.mem_append.mp hu with hu | hu
    · exact List.mem_append_left _ (hother u hu)
    · exact List.mem_append_right _ hu

/-- **A batch that was taken is skipped when it is fed again**, and nothing changes. -/
theorem feed_again {facts : List Triple} {stop : Readings} {report : FeedReport}
    (h : net.feed budget facts stop = some (net', .ok report)) (budget' : Nat) :
    net'.feed budget' facts stop =
      some (net', .ok { asserted := 0, skipped := facts.length, inferred := 0 }) := by
  obtain ⟨hfree, hclear, hfeeds, -⟩ := feed_eq_ok_iff.mp h
  exact feed_eq_ok_iff.mpr ⟨hfree, hclear, .skip hfeeds.mem, (Nat.sub_self _).symm⟩

end HornReasoner.Network
