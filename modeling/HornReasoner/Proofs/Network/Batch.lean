import HornReasoner.Network.Propagation

/-! Batches of facts.

A batch goes in fact by fact: one that is new is run to its last consequence, one that is known is
passed over (`Feeds`). The readings of the flag decide how many facts are taken and nothing else.
A feed takes all facts of its batch (`feed_eq_ok_iff`), or it is refused before the first, or it
leaves what feeding the facts before the first request leaves (`feed_eq_error_iff`). -/
namespace HornReasoner

namespace Readings

/-- How many of the `n` facts from number `start` on come before the first request. -/
def taken (stop : Readings) (start : Nat) : Nat → Nat
  | 0 => 0
  | n + 1 => if stop start then 0 else taken stop (start + 1) n + 1

theorem taken_spec (stop : Readings) (start n : Nat) :
    (∀ j < stop.taken start n, stop (start + j) = false) ∧
      (stop.taken start n = n ∨
        stop.taken start n < n ∧ stop (start + stop.taken start n) = true) := by
  induction n generalizing start with
  | zero => exact ⟨fun j hj => absurd hj (Nat.not_lt_zero j), .inl rfl⟩
  | succ n ih =>
    rw [taken]
    split
    · rename_i hasked
      exact ⟨fun j hj => absurd hj (Nat.not_lt_zero j), .inr ⟨Nat.zero_lt_succ n, hasked⟩⟩
    · rename_i hclear
      obtain ⟨hbefore, hend⟩ := ih (start + 1)
      refine ⟨fun j hj => ?_, ?_⟩
      · cases j with
        | zero => exact Bool.eq_false_iff.mpr hclear
        | succ j => exact Nat.add_right_comm start j 1 ▸ hbefore j (Nat.lt_of_succ_lt_succ hj)
      · rw [← Nat.add_assoc, Nat.add_right_comm start _ 1]
        exact hend.imp (congrArg (· + 1)) (And.imp_left Nat.succ_lt_succ)

/-- The reading before the fact number `k` is the first that asks to stop. -/
structure StopAt (stop : Readings) (k : Nat) : Prop where
  asked : stop k = true
  before : ∀ j < k, stop j = false

theorem StopAt.unique {stop : Readings} {j k : Nat} (h : stop.StopAt j) (h' : stop.StopAt k) :
    j = k := by
  rcases Nat.lt_trichotomy j k with hlt | heq | hlt
  · cases h.asked.symm.trans (h'.before j hlt)
  · exact heq
  · cases h'.asked.symm.trans (h.before k hlt)

theorem taken_eq_self_iff {stop : Readings} {n : Nat} :
    stop.taken 0 n = n ↔ ∀ j < n, stop j = false := by
  obtain ⟨hbefore, hend⟩ := taken_spec stop 0 n
  simp only [Nat.zero_add] at hbefore hend
  refine ⟨fun h => h ▸ hbefore, fun hclear => hend.resolve_right ?_⟩
  rintro ⟨hlt, hasked⟩
  cases hasked.symm.trans (hclear _ hlt)

theorem taken_eq_iff_of_lt {stop : Readings} {n k : Nat} (hk : k < n) :
    stop.taken 0 n = k ↔ stop.StopAt k := by
  obtain ⟨hbefore, hend⟩ := taken_spec stop 0 n
  simp only [Nat.zero_add] at hbefore hend
  constructor
  · rintro rfl
    exact ⟨(hend.resolve_left (Nat.ne_of_lt hk)).2, hbefore⟩
  · intro hstop
    rcases hend with heq | ⟨hlt, hasked⟩
    · cases hstop.asked.symm.trans (hbefore k (heq.symm ▸ hk))
    · exact StopAt.unique ⟨hasked, hbefore⟩ hstop

end Readings

/-- The facts of a batch that were fed, as far as the result tells. -/
def takenFacts (facts : List Triple) : Except Network.FeedError Network.FeedReport → List Triple
  | .ok _ => facts
  | .error (.cancelled processed _) => facts.take processed
  | .error (.nonGroundFact _) => []

namespace Network

variable {net net' : Network} {budget : Nat} {facts : List Triple} {stop : Readings}

/-- A batch goes in fact by fact: the facts that were new when their turn came are counted, and so
are those that were known. -/
inductive Feeds (budget : Nat) : Network → List Triple → Network → Nat → Nat → Prop where
  | nil {net : Network} : Feeds budget net [] net 0 0
  | known {net net' : Network} {t : Triple} {rest : List Triple} {asserted skipped : Nat} :
      t ∈ net.workingMemory.toList → Feeds budget net rest net' asserted skipped →
      Feeds budget net (t :: rest) net' asserted (skipped + 1)
  | new {net next net' : Network} {t : Triple} {rest : List Triple} {asserted skipped : Nat} :
      t ∉ net.workingMemory.toList →
      Network.run budget { net with workingMemory := net.workingMemory.insert t } (.fact t) =
        some next →
      Feeds budget next rest net' asserted skipped →
      Feeds budget net (t :: rest) net' (asserted + 1) skipped

namespace Feeds

variable {before after : List Triple} {asserted skipped : Nat}

theorem skip (hknown : ∀ t ∈ facts, t ∈ net.workingMemory.toList) :
    Feeds budget net facts net 0 facts.length := by
  induction facts with
  | nil => exact .nil
  | cons t rest ih =>
    obtain ⟨ht, hrest⟩ := List.forall_mem_cons.mp hknown
    exact .known ht (ih hrest)

/-- Two batches that go in one after the other go in as one. -/
theorem append {middle : Network} {asserted' skipped' : Nat}
    (h : Feeds budget net before middle asserted skipped)
    (h' : Feeds budget middle after net' asserted' skipped') :
    Feeds budget net (before ++ after) net' (asserted + asserted') (skipped + skipped') := by
  induction h with
  | nil => simpa using h'
  | known ht _ ih =>
    rw [Nat.add_right_comm]
    exact .known ht (ih h')
  | new ht hrun _ ih =>
    rw [Nat.add_right_comm]
    exact .new ht hrun (ih h')

/-- What every fact keeps, known or not, a batch keeps. -/
theorem keeps {P : Network → List Triple → Prop}
    (hknown : ∀ net fed t, P net fed → t ∈ net.workingMemory.toList → P net (fed ++ [t]))
    (hnew : ∀ net fed t net', P net fed → t ∉ net.workingMemory.toList →
      Network.run budget { net with workingMemory := net.workingMemory.insert t } (.fact t) =
        some net' → P net' (fed ++ [t]))
    (h : Feeds budget net facts net' asserted skipped) {fed : List Triple} (hnet : P net fed) :
    P net' (fed ++ facts) := by
  induction h generalizing fed with
  | nil => rwa [List.append_nil]
  | known ht _ ih =>
    rw [List.append_cons]
    exact ih (hknown _ _ _ hnet ht)
  | new ht hrun _ ih =>
    rw [List.append_cons]
    exact ih (hnew _ _ _ _ hnet ht hrun)

theorem feedFrom_eq (h : Feeds budget net facts net' asserted skipped) (total : Nat)
    (report : FeedReport) : net.feedFrom budget total (fun _ => false) report facts =
      some (net', .ok { report with
        asserted := report.asserted + asserted, skipped := report.skipped + skipped }) := by
  induction h generalizing report with
  | nil => rfl
  | known ht _ ih =>
    rw [feedFrom, if_neg Bool.false_ne_true, if_pos (Graph.contains_iff.mpr ht), ih,
      Nat.add_right_comm, Nat.add_assoc]
  | new ht hrun _ ih =>
    rw [feedFrom, if_neg Bool.false_ne_true, if_neg fun hin => ht (Graph.contains_iff.mp hin), hrun]
    dsimp only
    rw [ih, Nat.add_right_comm, Nat.add_assoc]

end Feeds

/-- Without requests a batch goes in as a whole. -/
theorem feedFrom_eq_some_iff {total : Nat} {report : FeedReport}
    {result : Except FeedError FeedReport} :
    net.feedFrom budget total (fun _ => false) report facts = some (net', result) ↔
      ∃ asserted skipped, Feeds budget net facts net' asserted skipped ∧
        result = .ok { report with
          asserted := report.asserted + asserted, skipped := report.skipped + skipped } := by
  constructor
  · intro h
    induction facts generalizing net report with
    | nil =>
      cases h
      exact ⟨0, 0, .nil, rfl⟩
    | cons t rest ih =>
      rw [feedFrom, if_neg Bool.false_ne_true] at h
      split at h
      · rename_i hcontains
        obtain ⟨asserted, skipped, hrest, rfl⟩ := ih h
        refine ⟨asserted, skipped + 1, .known (Graph.contains_iff.mp hcontains) hrest, ?_⟩
        rw [Nat.add_right_comm, Nat.add_assoc]
      · rename_i hcontains
        split at h
        · cases h
        · rename_i next hrun
          obtain ⟨asserted, skipped, hrest, rfl⟩ := ih h
          refine ⟨asserted + 1, skipped,
            .new (fun ht => hcontains (Graph.contains_iff.mpr ht)) hrun hrest, ?_⟩
          rw [Nat.add_right_comm, Nat.add_assoc]
  · rintro ⟨asserted, skipped, hfeeds, rfl⟩
    exact hfeeds.feedFrom_eq total report

/-- **Readings decide how many facts are taken and nothing else.** -/
theorem feedFrom_eq_take (budget total : Nat) (stop : Readings) (net : Network) {done : Nat}
    {report : FeedReport} (hdone : report.asserted + report.skipped = done) (facts : List Triple) :
    net.feedFrom budget total stop report facts =
      (net.feedFrom budget total (fun _ => false) report
        (facts.take (stop.taken done facts.length))).map fun e =>
          (e.1, if stop.taken done facts.length = facts.length then e.2
            else .error (.cancelled (done + stop.taken done facts.length) total)) := by
  induction facts generalizing net done report with
  | nil => rfl
  | cons t rest ih =>
    rw [List.length_cons, Readings.taken]
    cases hasked : stop done with
    | true => simp [feedFrom, hdone, hasked]
    | false =>
      simp only [Bool.false_eq_true, if_false, List.take_succ_cons, feedFrom, hdone, hasked,
        Nat.add_right_cancel_iff, ← Nat.add_assoc, Nat.add_right_comm done _ 1]
      split
      · exact ih net (by rw [← hdone, Nat.add_assoc])
      · split
        · rfl
        · rename_i next _
          exact ih next (by rw [← hdone, Nat.add_right_comm])

/-! ### Feeds -/

theorem find?_eq_none_iff : facts.find? Triple.hasVariables = none ↔
    ∀ t ∈ facts, t.hasVariables = false := by
  simp

/-- A batch without variables that nobody interrupts is taken; what it infers is counted at the
end. -/
theorem feed_eq_some_iff (hground : ∀ t ∈ facts, t.hasVariables = false)
    {result : Except FeedError FeedReport} :
    net.feed budget facts (fun _ => false) = some (net', result) ↔
      ∃ report, result = .ok report ∧ Feeds budget net facts net' report.asserted report.skipped ∧
        report.inferred = net'.inferred.size - net.inferred.size := by
  rw [feed, find?_eq_none_iff.mpr hground, Option.map_eq_some_iff]
  constructor
  · rintro ⟨⟨other, counted⟩, hfrom, heq⟩
    obtain ⟨asserted, skipped, hfeeds, rfl⟩ := feedFrom_eq_some_iff.mp hfrom
    cases heq
    exact ⟨_, rfl, by simpa using hfeeds, rfl⟩
  · rintro ⟨report, rfl, hfeeds, hinferred⟩
    refine ⟨_, hfeeds.feedFrom_eq facts.length {}, ?_⟩
    cases report
    cases hinferred
    simp [Except.map]

/-- **A feed takes the facts before the first request**, as if they were the batch. -/
theorem feed_eq_take (hground : ∀ t ∈ facts, t.hasVariables = false) :
    net.feed budget facts stop =
      (net.feed budget (facts.take (stop.taken 0 facts.length)) fun _ => false).map fun e =>
        (e.1, if stop.taken 0 facts.length = facts.length then e.2
          else .error (.cancelled (stop.taken 0 facts.length) facts.length)) := by
  have htaken := fun t ht => hground t (List.mem_of_mem_take (i := stop.taken 0 facts.length) ht)
  have htotal : ∀ total, net.feedFrom budget total (fun _ => false) {}
      (facts.take (stop.taken 0 facts.length)) = net.feedFrom budget facts.length (fun _ => false) {}
        (facts.take (stop.taken 0 facts.length)) := fun total => Option.ext fun e => by
    rw [feedFrom_eq_some_iff, feedFrom_eq_some_iff]
  rw [feed, find?_eq_none_iff.mpr hground, feed, find?_eq_none_iff.mpr htaken]
  dsimp only
  rw [feedFrom_eq_take _ _ stop _ rfl, htotal, Option.map_map, Option.map_map]
  congr 1
  funext e
  dsimp only [Function.comp]
  split
  · rfl
  · rw [Nat.zero_add, Nat.zero_add]
    rfl

/-- A batch is taken if it has no variables and nobody asks to stop. -/
theorem feed_eq_ok_iff {report : FeedReport} :
    net.feed budget facts stop = some (net', .ok report) ↔
      (∀ t ∈ facts, t.hasVariables = false) ∧ (∀ j < facts.length, stop j = false) ∧
      Feeds budget net facts net' report.asserted report.skipped ∧
      report.inferred = net'.inferred.size - net.inferred.size := by
  cases hbad : facts.find? Triple.hasVariables with
  | some bad =>
    rw [feed, hbad]
    refine iff_of_false (by simp) ?_
    rintro ⟨hground, -⟩
    cases (find?_eq_none_iff.mpr hground).symm.trans hbad
  | none =>
    have hground := find?_eq_none_iff.mp hbad
    rw [and_iff_right hground, feed_eq_take hground, ← Readings.taken_eq_self_iff]
    by_cases hk : stop.taken 0 facts.length = facts.length
    · rw [and_iff_right hk]
      simp [hk, feed_eq_some_iff hground, List.take_length]
    · simp [hk]

/-- A feed that is not taken is refused because of a variable, or it leaves what feeding the facts
before the first request leaves. -/
theorem feed_eq_error_iff {error : FeedError} :
    net.feed budget facts stop = some (net', .error error) ↔
      (∃ bad, facts.find? Triple.hasVariables = some bad ∧ error = .nonGroundFact bad ∧
        net' = net) ∨
      (∀ t ∈ facts, t.hasVariables = false) ∧ ∃ k < facts.length, stop.StopAt k ∧
        error = .cancelled k facts.length ∧
        ∃ report, net.feed budget (facts.take k) (fun _ => false) = some (net', .ok report) := by
  cases hbad : facts.find? Triple.hasVariables with
  | some bad =>
    rw [feed, hbad]
    constructor
    · rintro ⟨⟩
      exact .inl ⟨bad, rfl, rfl, rfl⟩
    · rintro (⟨_, ⟨⟩, rfl, rfl⟩ | ⟨hground, -⟩)
      · rfl
      · cases (find?_eq_none_iff.mpr hground).symm.trans hbad
  | none =>
    have hground := find?_eq_none_iff.mp hbad
    have htaken := fun t ht => hground t (List.mem_of_mem_take (i := stop.taken 0 facts.length) ht)
    rw [feed_eq_take hground, Option.map_eq_some_iff]
    constructor
    · rintro ⟨⟨other, result⟩, hfeed, heq⟩
      obtain ⟨report, rfl, -⟩ := (feed_eq_some_iff htaken).mp hfeed
      split at heq
      · cases heq
      · rename_i hne
        cases heq
        have hlt := (stop.taken_spec 0 facts.length).2.resolve_left hne
        exact .inr ⟨hground, _, hlt.1, (Readings.taken_eq_iff_of_lt hlt.1).mp rfl, rfl, report, hfeed⟩
    · rintro (⟨_, ⟨⟩, _⟩ | ⟨-, k, hk, hstop, rfl, report, hfeed⟩)
      have hcount := (Readings.taken_eq_iff_of_lt hk).mpr hstop
      rw [hcount]
      exact ⟨_, hfeed, by rw [if_neg (Nat.ne_of_lt hk)]⟩

/-- Whatever a feed answers, the facts that it took went in, and none of them has a variable. -/
theorem feeds_takenFacts {result : Except FeedError FeedReport}
    (h : net.feed budget facts stop = some (net', result)) :
    (∀ t ∈ takenFacts facts result, t.hasVariables = false) ∧
      ∃ asserted skipped, Feeds budget net (takenFacts facts result) net' asserted skipped := by
  cases result with
  | ok report =>
    obtain ⟨hground, -, hfeeds, -⟩ := feed_eq_ok_iff.mp h
    exact ⟨hground, _, _, hfeeds⟩
  | error e =>
    rcases feed_eq_error_iff.mp h with ⟨bad, -, rfl, rfl⟩ | ⟨hground, k, -, -, rfl, report, hfeed⟩
    · exact ⟨List.forall_mem_nil _, 0, 0, .nil⟩
    · obtain ⟨htaken, -, hfeeds, -⟩ := feed_eq_ok_iff.mp hfeed
      exact ⟨htaken, _, _, hfeeds⟩

/-- What every fact keeps, known or not, a call of `feed` keeps. -/
theorem feed_induction {P : Network → List Triple → Prop}
    (hknown : ∀ net fed t, P net fed → t ∈ net.workingMemory.toList → P net (fed ++ [t]))
    (hnew : ∀ net fed t net', P net fed → t ∉ net.workingMemory.toList →
      Network.run budget { net with workingMemory := net.workingMemory.insert t } (.fact t) =
        some net' → P net' (fed ++ [t]))
    {fed : List Triple} {result : Except FeedError FeedReport} (hnet : P net fed)
    (h : net.feed budget facts stop = some (net', result)) :
    P net' (fed ++ takenFacts facts result) := by
  obtain ⟨-, _, _, hfeeds⟩ := feeds_takenFacts h
  exact hfeeds.keeps hknown hnew hnet

/-- What every new fact keeps, whatever was fed before it, a call of `feed` keeps. -/
theorem feed_keeps {P : Network → Prop}
    (hnew : ∀ net t net', P net →
      Network.run budget { net with workingMemory := net.workingMemory.insert t } (.fact t) =
        some net' → P net')
    {result : Except FeedError FeedReport} (hnet : P net)
    (h : net.feed budget facts stop = some (net', result)) : P net' :=
  @feed_induction net net' budget facts stop (fun other _ => P other) (fun _ _ _ hother _ => hother)
    (fun other _ t next hother _ => hnew other t next hother) [] result hnet h

end Network

end HornReasoner
