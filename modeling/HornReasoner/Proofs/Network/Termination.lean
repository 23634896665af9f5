import HornReasoner.Proofs.Network.Capacity

/-! Calls come to an end.

Rules without existential variables conclude finitely many triples, and what these can set off is
finite, whatever order the agenda imposes: the log of a run has a bound that does not change on the
way, so the agenda is empty after as many steps (`Running.exists_drain`). Every call is a number of
such runs (`History.calls_end`). -/
namespace HornReasoner

/-! ### Budgets -/

/-- With budget enough the call answers, and always the same. -/
def Ends {α : Type} (call : Nat → Option α) (a : α) : Prop :=
  ∃ budget, ∀ more, budget ≤ more → call more = some a

namespace Ends

variable {α β : Type} {call : Nat → Option α} {a : α}

theorem const (a : α) : Ends (fun _ => some a) a := ⟨0, fun _ _ => rfl⟩

theorem bind (h : Ends call a) {next : Nat → α → Option β} {b : β}
    (hnext : Ends (fun budget => next budget a) b) :
    Ends (fun budget => (call budget).bind (next budget)) b := by
  obtain ⟨m, hm⟩ := h
  obtain ⟨n, hn⟩ := hnext
  refine ⟨max m n, fun more hmore => ?_⟩
  dsimp only at hn ⊢
  rw [hm more ((Nat.le_max_left m n).trans hmore), Option.bind_some,
    hn more ((Nat.le_max_right m n).trans hmore)]

theorem map (h : Ends call a) (f : α → β) : Ends (fun budget => (call budget).map f) (f a) :=
  h.imp fun _ hbudget more hmore => congrArg (Option.map f) (hbudget more hmore)

theorem exists_budget (h : Ends call a) : ∃ budget, call budget = some a :=
  h.imp fun budget hbudget => hbudget budget (Nat.le_refl _)

end Ends

namespace Network

variable {net net' : Network} {fed : List Triple} {log started : List Activation}
  {owed : List Triple}

/-! ### One run -/

theorem drain_mono {budget more : Nat} (hmore : budget ≤ more) (h : drain budget net = some net') :
    drain more net = some net' := by
  induction budget generalizing net more with
  | zero =>
    rw [drain] at h
    split at h
    · rename_i hidle
      cases h
      cases more with
      | zero => rw [drain, if_pos hidle]
      | succ more => rw [drain, List.isEmpty_iff.mp hidle]
    · cases h
  | succ budget ih =>
    obtain ⟨more, rfl⟩ : ∃ k, more = k + 1 := ⟨more - 1, by omega⟩
    rw [drain] at h ⊢
    split at h
    · exact h
    · exact ih (by omega) h

/-- A run ends if what every activation keeps bounds the log. -/
theorem exists_drain_of_bounded {P : Network → List Activation → Prop}
    (hstep : ∀ net log a rest, P net log → net.agenda = a :: rest →
      P ({ net with agenda := rest }.perform a) (log ++ [a]))
    (bound : Nat) (hbound : ∀ net log, P net log → log.length ≤ bound) {log : List Activation}
    (h : P net log) : ∃ net', drain (bound - log.length) net = some net' := by
  induction hn : bound - log.length generalizing net log with
  | zero =>
    cases hagenda : net.agenda with
    | nil => exact ⟨net, by rw [drain, hagenda]; rfl⟩
    | cons a rest =>
      have hlast := hbound _ _ (hstep net log a rest h hagenda)
      rw [List.length_append, List.length_singleton] at hlast
      omega
  | succ n ih =>
    rw [drain]
    cases hagenda : net.agenda with
    | nil => exact ⟨net, rfl⟩
    | cons a rest =>
      refine ih (hstep net log a rest h hagenda) ?_
      rw [List.length_append, List.length_singleton]
      omega

/-- **A run without existential variables ends.** -/
theorem Running.exists_drain (h : Running net fed log started owed) (hd : net.Datalog) :
    ∃ budget net', Network.drain budget net = some net' := by
  have hfacts : ∀ {other : Network} {log started : List Activation},
      other.skeleton = net.skeleton → Running other fed log started owed →
      other.workingMemory.toList ⊆ triplesOver (net.knownTerms fed) := by
    intro other log started hskeleton hother
    rw [← knownTerms_of_skeleton_eq hskeleton]
    exact hother.grounded.mem_triplesOver (hd.of_skeleton_eq hskeleton)
  -- facts that are inferred are started as well, over the terms that `net` knows
  have hstart : Running net fed log (started ++ [].map .fact) owed :=
    (List.append_nil started).symm ▸ h
  refine ⟨_, exists_drain_of_bounded (P := fun other log =>
    other.skeleton = net.skeleton ∧ ∃ more : List Triple,
      Running other fed log (started ++ more.map .fact) owed)
    (fun other log a rest ⟨hskeleton, more, hother⟩ hagenda => ?_)
    (started.length + (triplesOver (net.knownTerms fed)).length +
      (net.prospect (triplesOver (net.knownTerms fed))).length)
    (fun other log ⟨hskeleton, more, hother⟩ => ?_) ⟨rfl, [], hstart⟩⟩
  · obtain ⟨news, hnext, _⟩ := hother.perform hagenda
    rw [List.append_assoc, ← List.map_append] at hnext
    exact ⟨(skeleton_perform _ a).trans ((skeleton_agenda other rest).trans hskeleton), _, hnext⟩
  · have hsubset := hfacts hskeleton hother
    have hlog := hother.account.length_log_le hother.wired hsubset
    have hmore := hother.account.length_factsOf_started_le hsubset
    have hnews : factsOf (more.map Activation.fact) = more := by
      rw [factsOf, List.filterMap_map]
      exact List.filterMap_some
    rw [prospect_of_skeleton_eq hskeleton, List.length_append, List.length_map] at hlog
    rw [factsOf_append, hnews, List.length_append] at hmore
    omega

/-- What a run is begun with: facts that are owed, and truths. -/
def Beginnings (net : Network) (as : List Activation) : Prop :=
  ∀ a ∈ as, (∃ t, a = .fact t) ∨ ∃ id ∈ net.truths, a = .fire id {}

theorem Running.run_ends (h : Running net fed log started owed) {a : Activation}
    {owed' : List Triple} (hbegun : net.Beginnings [a]) (hfacts : factsOf [a] ++ owed' = owed)
    (hd : net.Datalog) :
    ∃ net', Ends (fun budget => net.run budget a) net' ∧ Advanced net net' ∧
      ∃ log started, Running net' fed log started owed' := by
  have hfirst := hbegun a (List.mem_singleton_self a)
  obtain ⟨budget, net', hdrain⟩ := (h.push hfirst hfacts).exists_drain (hd.of_skeleton_eq rfl)
  obtain ⟨hadvanced, log', started', hnext, _⟩ := h.run hfirst hfacts hdrain
  exact ⟨net', ⟨budget, fun _ hmore => drain_mono hmore hdrain⟩, hadvanced, log', started', hnext⟩

/-- Runs one after the other end. -/
theorem Running.runs_end {as : List Activation} (h : Running net fed log started (factsOf as ++ owed))
    (hidle : net.agenda = []) (hd : net.Datalog) (hbegun : net.Beginnings as) :
    ∃ net', Ends (fun budget => as.foldlM (Network.run budget) net) net' ∧ Advanced net net' ∧
      ∃ log started, Running net' fed log started owed := by
  induction as generalizing net log started with
  | nil => exact ⟨net, .const net, .refl hidle, log, started, h⟩
  | cons a rest ih =>
    have hfacts : factsOf [a] ++ (factsOf rest ++ owed) = factsOf (a :: rest) ++ owed := by
      rw [← List.append_assoc, ← factsOf_append, List.singleton_append]
    obtain ⟨next, hends, hadvanced, _, _, hnext⟩ := h.run_ends
      (fun b hb => hbegun b (List.mem_singleton.mp hb ▸ List.mem_cons_self ..)) hfacts hd
    obtain ⟨net', hrest, hmore, hfinal⟩ := ih hnext hadvanced.idle
      (hd.of_skeleton_eq hadvanced.skeleton) fun b hb => by
        rw [truths_of_skeleton_eq hadvanced.skeleton]
        exact hbegun b (List.mem_cons_of_mem _ hb)
    exact ⟨net', hends.bind hrest, hadvanced.trans hmore, hfinal⟩

theorem factsOf_map_fire (ids : List ProductionId) :
    factsOf (ids.map (Activation.fire · {})) = [] := by
  rw [factsOf, List.filterMap_map]
  exact List.filterMap_eq_nil_iff.mpr fun _ _ => rfl

theorem factsOf_map_fact (facts : List Triple) : factsOf (facts.map Activation.fact) = facts := by
  rw [factsOf, List.filterMap_map]
  exact List.filterMap_some

/-! ### Calls -/

theorem Running.assertTruths_ends {ids : List ProductionId} (h : Running net fed log started [])
    (hidle : net.agenda = []) (hd : net.Datalog) (hids : ∀ id ∈ ids, id ∈ net.truths) :
    ∃ net', Ends (fun budget => net.assertTruths budget ids) net' := by
  have hruns : Running net fed log started (factsOf (ids.map (Activation.fire · {})) ++ []) := by
    rw [factsOf_map_fire]
    exact h
  obtain ⟨net', hends, _⟩ := hruns.runs_end hidle hd fun a ha => by
    obtain ⟨id, hid, rfl⟩ := List.mem_map.mp ha
    exact .inr ⟨id, hids id hid, rfl⟩
  simp only [List.foldlM_map] at hends
  exact ⟨net', hends⟩

theorem replay_ends (hwired : net.Wired) (hidle : net.agenda = []) (hgrounded : net.Grounded fed)
    (hd : net.Datalog) : ∃ net', Ends (fun budget => net.replay budget) net' := by
  have hruns := Running.cleared hwired hidle hgrounded
  rw [← factsOf_map_fact net.workingMemory.toList, ← List.append_nil (factsOf _)] at hruns
  obtain ⟨net', hends, _⟩ := hruns.runs_end hidle (hd.of_skeleton_eq net.skeleton_cleared)
    fun a ha => by
      obtain ⟨t, _, rfl⟩ := List.mem_map.mp ha
      exact .inl ⟨t, rfl⟩
  simp only [List.foldlM_map] at hends
  exact ⟨net', hends⟩

theorem Running.feedFrom_ends (h : Running net fed log started [])
    (hidle : net.agenda = []) (hd : net.Datalog) (facts : List Triple) (stop : Readings)
    (total : Nat) (report : FeedReport) :
    ∃ e, Ends (fun budget => net.feedFrom budget total stop report facts) e := by
  induction facts generalizing net fed log started report with
  | nil => exact ⟨_, .const _⟩
  | cons t rest ih =>
    simp only [Network.feedFrom]
    split
    · exact ⟨_, .const _⟩
    · split
      · rename_i hknown
        exact ih (h.offer (Graph.contains_iff.mp hknown)) hidle hd _
      · rename_i hnew
        have ht : t ∉ net.workingMemory.toList := fun hin => hnew (Graph.contains_iff.mpr hin)
        obtain ⟨next, hends, hadvanced, _, _, hnext⟩ := (h.insert ht).run_ends (a := .fact t)
          (fun a ha => .inl ⟨t, List.mem_singleton.mp ha⟩) rfl (hd.of_skeleton_eq rfl)
        obtain ⟨e, hrest⟩ := ih hnext hadvanced.idle (hd.of_skeleton_eq hadvanced.skeleton)
          { report with asserted := report.asserted + 1 }
        have hboth : Ends (fun budget =>
            (Network.run budget { net with workingMemory := net.workingMemory.insert t }
              (.fact t)).bind fun next => next.feedFrom budget total stop
                { report with asserted := report.asserted + 1 } rest) e := hends.bind hrest
        refine ⟨e, hboth.imp fun budget h more hmore => ?_⟩
        rw [← h more hmore]
        dsimp only
        cases Network.run more { net with workingMemory := net.workingMemory.insert t } (.fact t) <;>
          rfl

theorem Resting.feed_ends (h : net.Resting fed []) (hd : net.Datalog) (facts : List Triple)
    (stop : Readings) : ∃ e, Ends (fun budget => net.feed budget facts stop) e := by
  obtain ⟨_, _, hrunning⟩ := h.running
  unfold Network.feed
  split
  · exact ⟨_, .const _⟩
  · obtain ⟨e, hends⟩ := hrunning.feedFrom_ends h.idle hd facts stop facts.length {}
    exact ⟨_, hends.map _⟩

theorem reset_ends (hwired : net.Wired) (hd : net.Datalog) :
    ∃ net', Ends (fun budget => net.reset budget) net' := by
  have hforgotten : net.forgotten.Datalog := hd.of_skeleton_eq net.skeleton_forgotten
  exact (Running.forgotten hwired).assertTruths_ends rfl hforgotten fun _ hid => hid

/-- Activating compiled rules ends. The network is the one with the new rules. -/
theorem Resting.activate_ends {kept : List HornRule} {added : List ProductionId}
    (h : net.Resting fed []) (hc : Compiled net net' kept added) (hd : net'.Datalog) :
    ∃ final, Ends (fun budget => net'.activate budget added) final := by
  have htruths : ∀ {middle : Network}, middle.skeleton = net'.skeleton →
      ∀ id ∈ added.filter net'.isTruth, id ∈ middle.truths := by
    intro middle hskeleton id hid
    rw [truths_of_skeleton_eq hskeleton, hc.wired.production.mem_truths]
    exact isTruth_iff.mp (List.mem_filter.mp hid).2
  rcases net'.activate_eq added with ⟨heq, _⟩ | ⟨heq, hquiet⟩
  · obtain ⟨log, started, hrunning⟩ := h.running
    have hgrounded := hrunning.grounded.of_same hc.grown.grows hc.grown.memory hc.grown.inferred
      hc.grown.skolem
    obtain ⟨middle, hreplay⟩ :=
      replay_ends hc.wired (hc.grown.agenda.trans h.idle) hgrounded hd
    obtain ⟨budget, hbudget⟩ := hreplay.exists_budget
    obtain ⟨hadvanced, _, _, hmiddle⟩ := h.resume hc (.inl hbudget)
    obtain ⟨final, hfinal⟩ := hmiddle.assertTruths_ends hadvanced.idle
      (hd.of_skeleton_eq hadvanced.skeleton) (htruths hadvanced.skeleton)
    simp only [heq]
    exact ⟨final, hreplay.bind hfinal⟩
  · have hresume : net'.replay 0 = some net' ∨ net' = net' ∧
        (net'.workingMemory.toList = [] ∨ ∀ id ∈ added, net'.isTruth id = true) :=
      .inr ⟨rfl, hquiet⟩
    obtain ⟨hadvanced, _, _, hmiddle⟩ := h.resume hc hresume
    simp only [heq]
    exact hmiddle.assertTruths_ends hadvanced.idle hd (htruths rfl)

theorem Resting.addRule_ends (h : net.Resting fed []) (rule : HornRule)
    (hd : (net.compile rule).1.Datalog) :
    ∃ e, Ends (fun budget => net.addRule budget rule) e := by
  have hc := compile_spec h.wired rule
  unfold Network.addRule
  split
  · rename_i compiled id hcompile
    rw [hcompile] at hc hd
    obtain ⟨final, hends⟩ := h.activate_ends hc hd
    exact ⟨_, hends.map _⟩
  · exact ⟨_, .const _⟩

theorem Resting.addRules_ends (h : net.Resting fed []) (rules : List HornRule)
    (hd : (net.compileAll {} rules).1.Datalog) :
    ∃ e, Ends (fun budget => net.addRules budget rules) e := by
  obtain ⟨added, hadded, hc⟩ := compileAll_spec h.wired rules {}
  obtain ⟨final, hends⟩ := h.activate_ends hc hd
  have hreport : (net.compileAll {} rules).2.added = added := hadded
  rw [← hreport] at hends
  exact ⟨_, hends.map _⟩

theorem Compiled.datalog {kept : List HornRule} {added : List ProductionId}
    (hc : Compiled net net' kept added) (hd : net.Datalog)
    (hkept : ∀ rule ∈ kept, rule.existentials = []) : net'.Datalog :=
  datalog_iff.mpr fun id rule hrule =>
    (hc.rules id rule hrule).elim (datalog_iff.mp hd id rule) (hkept rule)

end Network

open Network

/-- **Without existential variables every call ends, with nothing left to do**, whatever a feed
reads of the flag. For a call that adds rules this is asked of the network that they are compiled into, since it is the one that the
facts are run through. -/
theorem History.calls_end {builtins : Registry} {options : NetworkOptions} {net : Network}
    {ledger : Ledger} (h : History builtins options net ledger) :
    (net.Datalog → ∀ facts stop,
      ∃ e, Ends (fun budget => net.feed budget facts stop) e ∧ e.1.agenda = []) ∧
    (net.Datalog → ∃ net', Ends (fun budget => net.reset budget) net' ∧ net'.agenda = []) ∧
    (∀ rule, (net.compile rule).1.Datalog →
      ∃ e, Ends (fun budget => net.addRule budget rule) e ∧ e.1.agenda = []) ∧
    ∀ rules, (net.compileAll {} rules).1.Datalog →
      ∃ e, Ends (fun budget => net.addRules budget rules) e ∧ e.1.agenda = [] := by
  have hresting := h.keeps.resting
  refine ⟨fun hd facts stop => ?_, fun hd => ?_, fun rule hd => ?_, fun rules hd => ?_⟩
  · obtain ⟨e, hends⟩ := hresting.feed_ends hd facts stop
    obtain ⟨budget, hcall⟩ := hends.exists_budget
    exact ⟨e, hends, (h.feed hcall).keeps.resting.idle⟩
  · obtain ⟨net', hends⟩ := reset_ends hresting.wired hd
    obtain ⟨budget, hcall⟩ := hends.exists_budget
    exact ⟨net', hends, (h.reset hcall).keeps.resting.idle⟩
  · obtain ⟨e, hends⟩ := hresting.addRule_ends rule hd
    obtain ⟨budget, hcall⟩ := hends.exists_budget
    exact ⟨e, hends, (h.addRule hcall).keeps.resting.idle⟩
  · obtain ⟨e, hends⟩ := hresting.addRules_ends rules hd
    obtain ⟨budget, hcall⟩ := hends.exists_budget
    exact ⟨e, hends, (h.addRules hcall).keeps.resting.idle⟩

/-- The symmetry of a relation `p`. -/
def symmetry : HornRule :=
  .ofAtoms "symmetry" [⟨.var ⟨"x"⟩, .iri "p", .var ⟨"y"⟩⟩] [⟨.var ⟨"y"⟩, .iri "p", .var ⟨"x"⟩⟩]

theorem History.calls_end_of_transitivity : ∃ net ledger, History ∅ {} net ledger ∧
    net.workingMemory.toList.length = 3 ∧ net.Datalog ∧
    (∃ e, Ends (fun budget => net.feed budget [⟨.iri "c", .iri "p", .iri "a"⟩]) e ∧
      e.1.agenda = []) ∧
    ∃ e, Ends (fun budget => net.addRule budget symmetry) e ∧ e.1.agenda = [] := by
  have hrun : (Network.ofRule transitivity 20 chain).map (fun e =>
      (e.1.workingMemory.toList.length, e.1.productions.all fun p => p.rule.existentials.isEmpty)) =
        some (3, true) := by decide +kernel
  obtain ⟨⟨net, result⟩, hcalls, hnet⟩ := Option.map_eq_some_iff.mp hrun
  obtain ⟨hlength, hall⟩ := Prod.mk.inj hnet
  obtain ⟨ledger, h, _, _⟩ := History.of_ofRule hcalls
  have hd : net.Datalog := fun id p hp =>
    List.isEmpty_iff.mp (List.all_eq_true.mp hall p (List.mem_of_getElem? hp))
  have hsymmetry : (net.compile symmetry).1.Datalog := by
    refine (compile_spec h.keeps.resting.wired symmetry).datalog hd fun rule hrule => ?_
    have hsame : rule = symmetry := by
      cases hout : (net.compile symmetry).2 <;> simp_all [RuleOutcome.kept]
    rw [hsame]
    decide +kernel
  exact ⟨net, ledger, h, hlength, hd, h.calls_end.1 hd _ _, h.calls_end.2.2.1 symmetry hsymmetry⟩

end HornReasoner
