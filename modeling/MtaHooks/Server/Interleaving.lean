import MtaHooks.Server.Ledger

namespace MtaHooks

open FallibleState
open scoped BigOperators

/-!
# Connections side by side

A server runs its connections concurrently, and the main results are about every interleaving.

* `connections_independent` — a connection of the server is a run of the connection alone, and
  nothing another connection does can hold it up;
* `metrics_exact` — what each exported counter is, in terms of the connections' own runs.
-/

namespace Server

open ServerEvent ConnectionTask

variable {config : ServerConfig} {policy : Policy} {s t : Server} {past : List ServerEvent}

/-! ### No step aborts -/

/-- A task goes on unless it ends with a panic. -/
theorem advance_isOk {n : ℕ} {c : ConnectionTask} {stats : Stats}
    (h : ∀ e, c.driver.phase = .ended (.error e) → e.isPanic = false) :
    ∃ t, s.advance n c stats = .ok t := by
  unfold advance
  split
  next => exact ⟨_, rfl⟩
  next e hphase =>
    obtain ⟨i, hrecord⟩ := connectionError_spec (h e hphase) stats
    exact ⟨_, by rw [hrecord]; rfl⟩
  next => exact ⟨_, rfl⟩

/-- The counters of a live task's observation can be found. -/
theorem discard_isOk (h : Inv config policy s past) {n : ℕ} {c : ConnectionTask}
    (hlive : s.live n = some c) (fate : Fate) : ∃ t, s.discard n c fate = .ok t := by
  obtain ⟨hn, hc⟩ := live_some.mp hlive
  have hheld := (h.pooled.settled c (List.mem_of_getElem? hn)).held hc
  unfold discard
  cases ho : c.observation with
  | none => exact ⟨_, rfl⟩
  | some o =>
    obtain ⟨log, haccounts, -⟩ := h.metered.policy
    have hevaluating : isEvaluating c = true := by
      simp [isEvaluating, isRunning, hc, ← hheld.evaluating, ho]
    have hle := Machine.toNat_le_countP (p := isEvaluating) hn
    rw [hevaluating, Bool.toNat_true] at hle
    obtain ⟨live, hcount⟩ := Nat.exists_eq_add_of_le' hle
    rw [hcount] at haccounts
    obtain ⟨op, hdrop, -⟩ := haccounts.drop s.clock o (hheld.outcome o ho ▸ known_cancelled)
    exact ⟨_, by simp only [hdrop]; rfl⟩

/-- A live task takes every event its connection can take, and no other task notices. -/
theorem connection_goes (h : Inv config policy s past) {n : ℕ} {c : ConnectionTask}
    {event : Event} {d : Driver} (hlive : s.live n = some c) (hpossible : event.possible s.stop)
    (hdriver : Driver.step config.toConfig policy c.driver event = some d) :
    ∃ t, step config policy s (.connection n event) = some (.ok t) ∧
      t.tasks[n]?.map (·.driver) = some d ∧ ∀ k ≠ n, t.tasks[k]? = s.tasks[k]? := by
  obtain ⟨hn, hc⟩ := live_some.mp hlive
  have hlt := (List.getElem?_eq_some_iff.mp hn).1
  obtain ⟨observation, stats, hcount, -⟩ := h.metered.move h.pooled s.clock hn hc hpossible hdriver
    (ofConnection_snoc_self past n event) fun k hk => ofConnection_snoc_of_ne past event hk
  obtain ⟨t, ht⟩ : ∃ t, s.advance n { c with driver := d, observation } stats = .ok t :=
    advance_isOk fun e hphase =>
      Driver.ended_safe (sound_of_runs h.pooled hn) hpossible hdriver hphase
  refine ⟨t, ?_, ?_⟩
  · simp only [step, hlive, Option.bind_eq_bind, Option.bind_some, hpossible, if_true, hdriver,
      hcount]
    exact congrArg some ht
  · rcases advance_ok ht with ⟨-, rfl⟩ | ⟨result, stats', -, -, rfl⟩
    · exact ⟨by rw [List.getElem?_set_self hlt]; rfl, fun k hk => List.getElem?_set_ne hk.symm⟩
    · exact ⟨by
        show ((s.tasks.set n _)[n]?).map _ = _
        rw [List.getElem?_set_self hlt]; rfl, fun k hk => List.getElem?_set_ne hk.symm⟩

/-- **No event aborts the server.** -/
theorem step_ne_error (h : Inv config policy s past) (event : ServerEvent) (e : Error) :
    step config policy s event ≠ some (.error e) := by
  have hguarded : ∀ (p : Prop) [Decidable p] (t : Server),
      (if p then some (.ok t) else none : Option (Result Server)) ≠ some (.error e) := by
    intro p _ t
    split <;> exact fun h => nomatch h
  cases event with
  | wait elapsed => exact fun h => nomatch Option.some.inj h
  | cancel => exact fun h => nomatch Option.some.inj h
  | unready => exact fun h => nomatch Option.some.inj h
  | connection n event =>
    intro hstep
    obtain ⟨c, hlive, hstep'⟩ := Option.bind_eq_some_iff.mp hstep
    split at hstep'
    next hpossible =>
      obtain ⟨d, hdriver, -⟩ := Option.bind_eq_some_iff.mp hstep'
      obtain ⟨t, ht, -⟩ := connection_goes h hlive hpossible hdriver
      exact nomatch Option.some.inj (ht.symm.trans hstep)
    next => exact nomatch hstep'
  | crash n =>
    intro hstep
    obtain ⟨c, hlive, hstep⟩ := Option.bind_eq_some_iff.mp hstep
    obtain ⟨t, ht⟩ := discard_isOk h hlive .crashed
    rw [ht] at hstep
    exact hguarded _ t hstep
  | abort n =>
    intro hstep
    obtain ⟨c, hlive, hstep⟩ := Option.bind_eq_some_iff.mp hstep
    obtain ⟨t, ht⟩ := discard_isOk h hlive .aborted
    rw [ht] at hstep
    exact hguarded _ t hstep
  | accept => exact hguarded _ _
  | fail => exact hguarded _ _
  | leave => exact hguarded _ _
  | drained => exact hguarded _ _
  | deadline => exact hguarded _ _
  | joined => exact hguarded _ _

/-! ### The main results -/

/-- **Connections are independent.**  In every interleaving: no event aborts the server; at
    most `max_connections` tasks run; every connection, however its task ended, is a run of the
    connection alone on its own events; and a running task can take every event its connection
    can take, with no effect on another task. -/
theorem connections_independent {config : ServerConfig} {policy : Policy} {ready : Bool}
    {events : List ServerEvent} {s : Server} (h : Reaches config policy ready events s) :
    (∀ event e, step config policy s event ≠ some (.error e)) ∧
      s.tasks.countP isRunning ≤ config.maxConnections ∧
      (∀ n c, s.tasks[n]? = some c →
        Driver.Reaches config.toConfig policy (ofConnection events n) c.driver) ∧
      ∀ n c event d, s.live n = some c → event.possible s.stop →
        Driver.step config.toConfig policy c.driver event = some d →
        ∃ t, next config policy s (.connection n event) = some t ∧
          t.tasks[n]?.map (·.driver) = some d ∧ ∀ k ≠ n, t.tasks[k]? = s.tasks[k]? := by
  have hinv := h.inv
  refine ⟨step_ne_error hinv, ?_, ?_, ?_⟩
  · have hpermits := hinv.pooled.permits
    omega
  · intro n c hn
    exact hinv.pooled.runs.ends n c.driver (by rw [List.getElem?_map, hn]; rfl)
  · intro n c event d hlive hpossible hdriver
    obtain ⟨t, ht, htasks⟩ := connection_goes hinv hlive hpossible hdriver
    exact ⟨t, by rw [next, ht]; rfl, htasks⟩

/-- A server for one connection. -/
def sampleConfig : ServerConfig := { maxConnections := 1 }

/-- A server that has just started. -/
def sampleStart : Server where
  serving := .accepting
  stop := false
  clock := 0
  permits := 1
  tasks := []
  stats := { ready := true, listener := 1 }

/-- Two connections arrive and the second is refused; the server is stopped while the first
    awaits its CONNECT decision, and drains. -/
def sampleRun : List ServerEvent :=
  [.accept, .accept, .connection 0 (.frame Sample.offer), .connection 0 (.write .done),
    .connection 0 (.frame Sample.connect), .cancel, .leave, .connection 0 (.tick .done),
    .wait 3000000, .connection 0 (.evaluated (.ok {})), .connection 0 (.write .done),
    .connection 0 .stop, .drained]

theorem sampleRun_isSome :
    (Machine.exec (next sampleConfig Driver.samplePolicy) sampleStart sampleRun).isSome := by
  decide +kernel

/-- The server after the run. -/
def sampleServer : Server := Option.get _ sampleRun_isSome

/-- The sample is a run. -/
theorem sampleServer_reaches :
    Reaches sampleConfig Driver.samplePolicy true sampleRun sampleServer :=
  ⟨sampleStart, rfl, (Option.some_get _).symm⟩

/-- One connection at a time, each one a run of its own. -/
theorem connections_independent_at_drain :
    sampleServer.tasks.countP isRunning ≤ 1 ∧
      ∀ n c, sampleServer.tasks[n]? = some c →
        Driver.Reaches {} Driver.samplePolicy (ofConnection sampleRun n) c.driver :=
  ⟨(connections_independent sampleServer_reaches).2.1,
    (connections_independent sampleServer_reaches).2.2.1⟩

/-- The sum over all connections of the events of one kind in their own runs. -/
def met (config : ServerConfig) (policy : Policy) (s : Server) (events : List ServerEvent)
    (kind : Driver → Event → Bool) : ℕ :=
  ∑ n ∈ Finset.range s.tasks.length,
    Machine.tally (Driver.step config.toConfig policy) (.new config.toConfig policy) kind
      (ofConnection events n)

/-- **The metrics are exact.**  In every interleaving the connection counters count tasks, the
    others count events of the connections' own runs, and the observations of the policy are
    those of the callbacks: the live ones, and the finished ones by their outcome. -/
theorem metrics_exact {config : ServerConfig} {policy : Policy} {ready : Bool}
    {events : List ServerEvent} {s : Server} (h : Reaches config policy ready events s) :
    (s.stats.connections = s.tasks.length ∧
      s.stats.connections + s.stats.overload = events.countP isAccept ∧
      s.stats.active = s.tasks.countP isRunning ∧
      s.stats.active + s.permits = config.maxConnections) ∧
    (s.stats.messages = met config policy s events Driver.isMessage ∧
      s.stats.progress = met config policy s events Driver.isProgress ∧
      s.stats.policyErrors = met config policy s events Driver.isFailed) ∧
    (s.stats.errors = s.tasks.countP isErrored ∧
      s.stats.errors = ∑ i, s.stats.connectionFailures i) ∧
    (s.stats.policy.active = s.tasks.countP isEvaluating ∧
      s.stats.policy.values.success = met config policy s events Driver.isDecided ∧
      s.stats.policy.values.count = s.stats.policy.values.success + s.stats.policyErrors +
        s.tasks.countP isLost ∧
      s.stats.policy.values.count =
        s.stats.policy.values.success + ∑ i, s.stats.policy.values.failures i ∧
      (∀ i j, i ≤ j → s.stats.policy.values.buckets i ≤ s.stats.policy.values.buckets j) ∧
      ∀ i, s.stats.policy.values.buckets i ≤ s.stats.policy.values.count) := by
  obtain ⟨hp, hm, harrivals⟩ := h.inv
  have hpermits := hp.permits
  obtain ⟨log, haccounts, hsuccess, hcancelled, hlength⟩ := hm.policy
  obtain ⟨hcount, hmono, hle⟩ := haccounts.values.consistent
  have hdecided : s.stats.policy.values.success = met config policy s events Driver.isDecided :=
    haccounts.values.success.trans hsuccess
  have htotal : s.stats.policy.values.count = s.stats.policy.values.success +
      s.stats.policyErrors + s.tasks.countP isLost := by
    rw [haccounts.values.count, hlength, hm.policyErrors, hdecided]
    rfl
  refine ⟨⟨hm.connections, harrivals, hm.active, ?_⟩, ⟨hm.messages, hm.progress, hm.policyErrors⟩,
    ⟨hm.errors, hm.errors.trans hm.failures.symm⟩, haccounts.active, hdecided, htotal, hcount,
    hmono, hle⟩
  rw [hm.active]
  omega

/-- One connection is accepted, and one is turned away. -/
theorem metrics_exact_at_drain :
    sampleServer.stats.connections + sampleServer.stats.overload = 2 ∧
      sampleServer.stats.policy.values.success =
        met sampleConfig Driver.samplePolicy sampleServer sampleRun Driver.isDecided :=
  ⟨(metrics_exact sampleServer_reaches).1.2.1, (metrics_exact sampleServer_reaches).2.2.2.2.1⟩

end Server

end MtaHooks
