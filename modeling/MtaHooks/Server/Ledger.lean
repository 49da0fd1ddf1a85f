import MtaHooks.Server.Metering

namespace MtaHooks

open FallibleState
open scoped BigOperators

/-!
# The ledger of a server

What holds in every interleaving of the tasks, and what the metrics of the server stand for.

* `Server.Pooled` — the tasks are runs of their own, and the permits count them;
* `Server.Metered` — every counter is a count of tasks, or of the events they have met;
* `Server.Inv` — both, and it is preserved by every step (`Inv.moves`) and so by every run
  (`Reaches.inv`).
-/

namespace Driver

/-- What the environment can do to a write is no abort. -/
theorem writeFrame_safe {d d' : Driver} {frame : Frame} {w : Write} {e : Error}
    (h : d.writeFrame frame w = some (d', .error e))
    (hw : ∀ n e, w = .torn n e → e.isPanic = false) :
    e.isPanic = false := by
  unfold writeFrame at h
  split at h
  next e' hencode =>
    obtain ⟨-, he⟩ := Prod.mk.inj (Option.some.inj h)
    obtain rfl := Except.error.inj he
    unfold Frame.encode at hencode
    split at hencode
    · cases hencode
    · obtain rfl := Except.error.inj hencode
      rfl
  next => cases h
  next part n e' hencode =>
    split at h
    · obtain ⟨-, he⟩ := Prod.mk.inj (Option.some.inj h)
      obtain rfl := Except.error.inj he
      exact hw n _ rfl
    · cases h

/-- A reply is no failure. -/
theorem reply_ne_failed (frames : List Frame) (close : Bool) (e : Error) :
    reply frames close ≠ .ended (.error e) := by
  unfold reply
  cases frames with
  | nil => cases close <;> exact fun h => nomatch h
  | cons frame frames => exact fun h => nomatch h

/-- Composing a reply never aborts. -/
theorem conclude_safe {d : Driver} {frames : List Frame} {close failOpen : Bool}
    {outcome : Result Decision} {e : Error} (hs : d.session.Valid)
    (h : (d.conclude failOpen frames close outcome).phase = .ended (.error e)) :
    e.isPanic = false := by
  have hresolve : (resolve failOpen outcome d.session).1 = .error e := by
    unfold conclude at h
    split at h
    next => exact absurd h (reply_ne_failed _ _ _)
    next e' s hr =>
      obtain rfl := Except.error.inj (Phase.ended.inj h)
      rw [hr]
  unfold resolve at hresolve
  split at hresolve
  next => exact Session.complete_safe hs _ e hresolve
  next decision =>
    split at hresolve
    next => cases hresolve
    next e' t hcomplete =>
      obtain rfl := Session.complete_error hcomplete
      exact Session.complete_safe hs _ e hresolve

/-- A frame ends a connection without a panic. -/
theorem handle_safe {config : Config} {policy : Policy} {d : Driver} {frame : Frame} {e : Error}
    (hs : Sound config d) (h : (d.handle config policy frame).phase = .ended (.error e)) :
    e.isPanic = false := by
  have hnext : (d.session.call (.receive frame)).2.Reachable :=
    Machine.Reachable.next hs.session _
  have hsafe := Session.receive_safe hs.session.valid frame
  unfold handle at h
  rcases hr : Session.receive frame d.session with ⟨r, s⟩
  rw [show (d.session.call (.receive frame)).2 = s from congrArg Prod.snd hr] at hnext
  rw [hr] at h hsafe
  cases r with
  | error e' =>
    obtain rfl := Except.error.inj (Phase.ended.inj h)
    exact hsafe _ rfl
  | ok step =>
    dsimp only at h
    split at h
    next => exact absurd h (reply_ne_failed _ _ _)
    next stage _ =>
      split at h
      · cases h
      · exact conclude_safe (d := { d with session := s, phase := .reading }) hnext.valid h

/-- The error a connection ends with is no abort. -/
theorem ended_safe {config : Config} {policy : Policy} {d d' : Driver} {event : Event}
    {stop : Bool} {e : Error} (hs : Sound config d) (hpossible : event.possible stop)
    (hstep : step config policy d event = some d') (hended : d'.phase = .ended (.error e)) :
    e.isPanic = false := by
  have hvalid := hs.session.valid
  unfold step at hstep
  split at hstep
  next =>
    obtain rfl := Option.some.inj hstep
    cases hended
  next =>
    obtain rfl := Option.some.inj hstep
    cases hended
  next =>
    obtain rfl := Option.some.inj hstep
    obtain rfl := Except.error.inj (Phase.ended.inj hended)
    simpa [Event.possible] using hpossible
  next =>
    split at hstep
    · obtain rfl := Option.some.inj hstep
      exact handle_safe hs hended
    · cases hstep
  next => obtain rfl := Option.some.inj hstep; exact conclude_safe hvalid hended
  next => obtain rfl := Option.some.inj hstep; exact conclude_safe hvalid hended
  next hphase =>
    split at hstep
    · obtain ⟨⟨d₁, r⟩, hwrite, rfl⟩ := Option.map_eq_some_iff.mp hstep
      obtain ⟨hsession, hp⟩ := writeFrame_some hwrite
      cases r with
      | ok _ =>
        rw [show d₁.phase = d.phase from hp, hphase] at hended
        cases hended
      | error e' => exact conclude_safe (hsession ▸ hvalid) hended
    · cases hstep
  next w hphase =>
    obtain ⟨⟨d₁, r⟩, hwrite, rfl⟩ := Option.map_eq_some_iff.mp hstep
    cases r with
    | ok _ => exact absurd hended (reply_ne_failed _ _ _)
    | error e' =>
      obtain rfl := Except.error.inj (Phase.ended.inj hended)
      refine writeFrame_safe hwrite fun n e hw => ?_
      rw [hw] at hpossible
      simpa [Event.possible] using hpossible
  next => cases hstep

end Driver

namespace ServerEvent

/-- The connection an event is an event of. -/
def toConnection : ServerEvent → Option (ℕ × Event)
  | .connection n event => some (n, event)
  | _ => none

/-- The events of one connection. -/
def ofConnection (events : List ServerEvent) (n : ℕ) : List Event :=
  Machine.addressed toConnection events n

end ServerEvent

namespace ConnectionTask

/-- What the fate of a task says about its connection. -/
structure Settled (c : ConnectionTask) : Prop where
  held : c.fate = .running → c.Held
  running : c.fate = .running → ∀ result, c.driver.phase ≠ .ended result
  returned : c.fate = .returned → ∃ result, c.driver.phase = .ended result
  crashed : c.fate = .crashed → c.driver.evaluating = true

/-- A running task. -/
def isRunning (c : ConnectionTask) : Bool := c.fate = .running

/-- A running task with a callback to evaluate. -/
def isEvaluating (c : ConnectionTask) : Bool := c.isRunning && c.driver.evaluating

/-- A task that was dropped while it evaluated a callback. -/
def isLost (c : ConnectionTask) : Bool :=
  (c.fate = .crashed || c.fate = .aborted) && c.driver.evaluating

/-- A task that has returned an error. -/
def isErrored (c : ConnectionTask) : Bool :=
  c.fate = .returned && match c.driver.phase with
    | .ended (.error _) => true
    | _ => false

end ConnectionTask

namespace Server

open ServerEvent ConnectionTask

/-- A run of the server. -/
def Reaches (config : ServerConfig) (policy : Policy) (ready : Bool)
    (events : List ServerEvent) (s : Server) : Prop :=
  ∃ s₀, start config ready = .ok s₀ ∧ Machine.exec (next config policy) s₀ events = some s

/-- How many events of a kind all connections have met. -/
def total (config : ServerConfig) (policy : Policy) (tasks : List ConnectionTask)
    (history : ℕ → List Event) (kind : Driver → Event → Bool) : ℕ :=
  Machine.total (Driver.step config.toConfig policy) (.new config.toConfig policy) kind
    tasks.length history

/-- What holds between a server and its tasks, given the events of each connection. -/
structure Pooled (config : ServerConfig) (policy : Policy) (tasks : List ConnectionTask)
    (permits : ℕ) (history : ℕ → List Event) : Prop where
  runs : Machine.Runs (Driver.step config.toConfig policy) (.new config.toConfig policy)
    (tasks.map (·.driver)) history
  settled : ∀ c ∈ tasks, Settled c
  permits : permits + tasks.countP isRunning = config.maxConnections

/-- What the metrics of a server stand for. -/
structure Metered (config : ServerConfig) (policy : Policy) (tasks : List ConnectionTask)
    (stats : Stats) (history : ℕ → List Event) : Prop where
  connections : stats.connections = tasks.length
  active : stats.active = tasks.countP isRunning
  messages : stats.messages = total config policy tasks history Driver.isMessage
  progress : stats.progress = total config policy tasks history Driver.isProgress
  policyErrors : stats.policyErrors = total config policy tasks history Driver.isFailed
  errors : stats.errors = tasks.countP isErrored
  failures : ∑ i, stats.connectionFailures i = tasks.countP isErrored
  policy : ∃ log, stats.policy.Accounts (tasks.countP isEvaluating) log ∧
    (log.countP fun x => x.2 = "success") = total config policy tasks history Driver.isDecided ∧
    (log.countP fun x => x.2 = "cancelled") = tasks.countP isLost ∧
    log.length = total config policy tasks history Driver.isDecided +
      total config policy tasks history Driver.isFailed + tasks.countP isLost

/-- A connection arrives. -/
def isAccept : ServerEvent → Bool
  | .accept => true
  | _ => false

/-- The invariant of a run. -/
structure Inv (config : ServerConfig) (policy : Policy) (s : Server)
    (past : List ServerEvent) : Prop where
  pooled : Pooled config policy s.tasks s.permits (ofConnection past)
  metered : Metered config policy s.tasks s.stats (ofConnection past)
  arrivals : s.stats.connections + s.stats.overload = past.countP isAccept

variable {config : ServerConfig} {policy : Policy} {tasks : List ConnectionTask} {permits : ℕ}
variable {history history' : ℕ → List Event} {stats : Stats}

/-! ### A connection is admitted -/

/-- A new connection adds nothing to a total. -/
theorem total_take (h : Pooled config policy tasks permits history) (c : ConnectionTask)
    (kind : Driver → Event → Bool) :
    total config policy (tasks ++ [c]) history kind = total config policy tasks history kind := by
  have hjoin := Machine.total_join h.runs kind
  rw [List.length_map] at hjoin
  unfold total
  rw [List.length_append, List.length_singleton]
  exact hjoin

/-- A new connection has nothing to settle. -/
theorem new_settled (config : Config) (policy : Policy) :
    Settled { driver := .new config policy } :=
  ⟨fun _ => .none rfl rfl, fun _ _ hp => (nomatch hp), fun hf => (nomatch hf),
    fun hf => (nomatch hf)⟩

/-- A new connection takes a permit. -/
theorem Pooled.take (h : Pooled config policy tasks permits history) (hpermits : 0 < permits) :
    Pooled config policy (tasks ++ [{ driver := .new config.toConfig policy }]) (permits - 1)
      history where
  runs := by
    rw [List.map_append, List.map_singleton]
    exact h.runs.join
  settled c hc := by
    rcases List.mem_append.mp hc with hmem | hlast
    · exact h.settled c hmem
    · obtain rfl := List.mem_singleton.mp hlast
      exact new_settled config.toConfig policy
  permits := by
    have hp := h.permits
    have hnew : isRunning { driver := .new config.toConfig policy } = true := rfl
    rw [Machine.countP_concat, hnew, Bool.toNat_true]
    omega

/-- A new connection is counted, and has measured nothing. -/
theorem Metered.take (h : Metered config policy tasks stats history)
    (hp : Pooled config policy tasks permits history) :
    Metered config policy (tasks ++ [{ driver := .new config.toConfig policy }])
      { stats with connections := stats.connections + 1, active := stats.active + 1 } history := by
  have hnew : isRunning { driver := .new config.toConfig policy } = true ∧
      isEvaluating { driver := .new config.toConfig policy } = false ∧
      isLost { driver := .new config.toConfig policy } = false ∧
      isErrored { driver := .new config.toConfig policy } = false :=
    ⟨rfl, rfl, rfl, rfl⟩
  constructor <;> simp only [total_take hp, Machine.countP_concat, hnew, Bool.toNat_true,
    Bool.toNat_false, Nat.add_zero]
  · rw [h.connections, List.length_append, List.length_singleton]
  · rw [h.active]
  · exact h.messages
  · exact h.progress
  · exact h.policyErrors
  · exact h.errors
  · exact h.failures
  · exact h.policy

/-! ### A task is replaced -/

/-- An event of a connection adds itself to the total. -/
theorem total_moved (h : Pooled config policy tasks permits history) {n : ℕ} {c : ConnectionTask}
    {event : Event} (hn : tasks[n]? = some c) (hself : history' n = history n ++ [event])
    (hrest : ∀ k ≠ n, history' k = history k) (c' : ConnectionTask)
    (kind : Driver → Event → Bool) :
    total config policy (tasks.set n c') history' kind =
      total config policy tasks history kind + (kind c.driver event).toNat := by
  have hm : (tasks.map (·.driver))[n]? = some c.driver := by rw [List.getElem?_map, hn]; rfl
  have hmove := Machine.total_move h.runs hm hself hrest kind
  rw [List.length_map] at hmove
  unfold total
  rw [List.length_set]
  exact hmove

/-- A total is one over the histories. -/
theorem total_set (n : ℕ) (c : ConnectionTask) (kind : Driver → Event → Bool) :
    total config policy (tasks.set n c) history kind = total config policy tasks history kind := by
  unfold total
  rw [List.length_set]

/-- An event of a connection is a step of its run. -/
theorem Pooled.runs_moved (h : Pooled config policy tasks permits history) {n : ℕ}
    {c c' : ConnectionTask} {event : Event} (hn : tasks[n]? = some c)
    (hdriver : Driver.step config.toConfig policy c.driver event = some c'.driver)
    (hself : history' n = history n ++ [event]) (hrest : ∀ k ≠ n, history' k = history k) :
    Machine.Runs (Driver.step config.toConfig policy) (.new config.toConfig policy)
      ((tasks.set n c').map (·.driver)) history' := by
  have hm : (tasks.map (·.driver))[n]? = some c.driver := by rw [List.getElem?_map, hn]; rfl
  rw [List.map_set]
  exact h.runs.move hm hdriver hself hrest

/-- A task that keeps its driver keeps the drivers. -/
theorem map_set_driver {n : ℕ} {c c' : ConnectionTask} (hn : tasks[n]? = some c)
    (hdriver : c'.driver = c.driver) :
    (tasks.set n c').map (·.driver) = tasks.map (·.driver) := by
  rw [List.map_set, hdriver]
  exact Machine.set_eq_self (by rw [List.getElem?_map, hn]; rfl)

/-- The tasks after one of them is replaced. -/
theorem Pooled.replace (h : Pooled config policy tasks permits history) {permits' n : ℕ}
    {c c' : ConnectionTask} (hn : tasks[n]? = some c) (hc : c.fate = .running)
    (hruns : Machine.Runs (Driver.step config.toConfig policy) (.new config.toConfig policy)
      ((tasks.set n c').map (·.driver)) history')
    (hsettled : Settled c') (hpermits : permits' + (isRunning c').toNat = permits + 1) :
    Pooled config policy (tasks.set n c') permits' history' where
  runs := hruns
  settled u hu := by
    rcases List.mem_or_eq_of_mem_set hu with hmem | rfl
    · exact h.settled u hmem
    · exact hsettled
  permits := by
    have hp := h.permits
    have hset := Machine.countP_set (p := isRunning) hn c'
    rw [show isRunning c = true from decide_eq_true hc, Bool.toNat_true] at hset
    omega

/-- The counters of the accept loop are the same. -/
structure SameFront (stats stats' : Stats) : Prop where
  connections : stats'.connections = stats.connections
  overload : stats'.overload = stats.overload
  ready : stats'.ready = stats.ready
  listener : stats'.listener = stats.listener
  graceful : stats'.drainGraceful = stats.drainGraceful
  forced : stats'.drainForced = stats.drainForced

/-! ### A task meets an event -/

/-- The driver of each task is sound. -/
theorem sound_of_runs (h : Pooled config policy tasks permits history) {n : ℕ}
    {c : ConnectionTask} (hn : tasks[n]? = some c) : c.driver.Sound config.toConfig := by
  have hm : (tasks.map (·.driver))[n]? = some c.driver := by rw [List.getElem?_map, hn]; rfl
  exact Driver.Reaches.sound (h.runs.ends n c.driver hm)

/-- The counts of the tasks after a running one is replaced. -/
theorem countP_replace {n : ℕ} {c : ConnectionTask} (hn : tasks[n]? = some c)
    (hc : c.fate = .running) (c' : ConnectionTask) :
    (tasks.set n c').countP isRunning + 1 = tasks.countP isRunning + (isRunning c').toNat ∧
      (tasks.set n c').countP isErrored = tasks.countP isErrored + (isErrored c').toNat ∧
      (tasks.set n c').countP isLost = tasks.countP isLost + (isLost c').toNat ∧
      (tasks.set n c').countP isEvaluating + c.driver.evaluating.toNat =
        tasks.countP isEvaluating + (isEvaluating c').toNat := by
  have hset := fun kind => Machine.countP_set (p := kind) hn c'
  have hrunning : isRunning c = true := decide_eq_true hc
  have herrored : isErrored c = false := by simp [isErrored, hc]
  have hlost : isLost c = false := by simp [isLost, hc]
  have hevaluating : isEvaluating c = c.driver.evaluating := by rw [isEvaluating, hrunning]; rfl
  have h₁ := hset isRunning
  have h₂ := hset isErrored
  have h₃ := hset isLost
  have h₄ := hset isEvaluating
  rw [hrunning] at h₁
  rw [herrored] at h₂
  rw [hlost] at h₃
  rw [hevaluating] at h₄
  exact ⟨h₁, h₂, h₃, h₄⟩

/-- **Counting rule for the server.**  Whatever the event of a connection is, counting it
    never aborts, and the metrics then stand for the events met. -/
theorem Metered.move (h : Metered config policy tasks stats history)
    (hp : Pooled config policy tasks permits history) {n : ℕ} {c : ConnectionTask} {event : Event}
    {d : Driver} {stop : Bool} (now : ℕ) (hn : tasks[n]? = some c) (hc : c.fate = .running)
    (hpossible : event.possible stop)
    (hdriver : Driver.step config.toConfig policy c.driver event = some d)
    (hself : history' n = history n ++ [event]) (hrest : ∀ k ≠ n, history' k = history k) :
    ∃ observation stats', c.count policy now event stats = .ok (observation, stats') ∧
      Held { c with driver := d, observation } ∧ SameFront stats stats' ∧
      Metered config policy (tasks.set n { c with driver := d, observation }) stats' history' := by
  have hheld := (hp.settled c (List.mem_of_getElem? hn)).held hc
  obtain ⟨log, haccounts, hsuccess, hcancelled, hlength⟩ := h.policy
  have hle : c.driver.evaluating.toNat ≤ tasks.countP isEvaluating := by
    have hle := Machine.toNat_le_countP (p := isEvaluating) hn
    rwa [isEvaluating, show isRunning c = true from decide_eq_true hc, Bool.true_and] at hle
  obtain ⟨live, hlive⟩ : ∃ live, tasks.countP isEvaluating = live + c.driver.evaluating.toNat :=
    ⟨_, (Nat.sub_add_cancel hle).symm⟩
  rw [hlive] at haccounts
  obtain ⟨observation, op, hcount, hheld', hop⟩ :=
    ConnectionTask.count_spec now (sound_of_runs hp hn) hheld hpossible hdriver haccounts
  refine ⟨observation, _, hcount, hheld', ⟨rfl, rfl, rfl, rfl, rfl, rfl⟩, ?_⟩
  have htotal := total_moved hp hn hself hrest { c with driver := d, observation }
  have hentries := ConnectionTask.entries_counts now event hheld
  -- The task is still running, so only the count of evaluations can change.
  obtain ⟨hrunning, herrored, hlost, hevaluating⟩ :=
    countP_replace hn hc { c with driver := d, observation }
  rw [show isRunning { c with driver := d, observation } = true from decide_eq_true hc,
    Bool.toNat_true] at hrunning
  rw [show isErrored { c with driver := d, observation } = false by simp [isErrored, hc],
    Bool.toNat_false, Nat.add_zero] at herrored
  rw [show isLost { c with driver := d, observation } = false by simp [isLost, hc],
    Bool.toNat_false, Nat.add_zero] at hlost
  rw [show isEvaluating { c with driver := d, observation } = d.evaluating by
    simp [isEvaluating, isRunning, hc], hlive] at hevaluating
  constructor
  · rw [List.length_set]
    exact h.connections
  · rw [Nat.add_right_cancel hrunning]
    exact h.active
  · rw [htotal, h.messages]
  · rw [htotal, h.progress]
  · rw [htotal, h.policyErrors]
  · rw [herrored]
    exact h.errors
  · rw [herrored]
    exact h.failures
  · refine ⟨c.entries now event ++ log, ?_, ?_, ?_, ?_⟩
    · rw [show (tasks.set n { c with driver := d, observation }).countP isEvaluating =
        live + d.evaluating.toNat by omega]
      exact hop
    · rw [List.countP_append, hentries.1, hsuccess, htotal, Nat.add_comm]
    · rw [List.countP_append, hentries.2.1, hcancelled, hlost, Nat.zero_add]
    · rw [List.length_append, hentries.2.2, hlength, htotal, htotal, hlost]
      omega

/-- Recording the error of a connection counts it once, in all and under its label. -/
theorem connectionError_spec {e : Error} (he : e.isPanic = false) (stats : Stats) :
    ∃ i, stats.connectionError e = .ok { stats with
      errors := stats.errors + 1
      connectionFailures := bump stats.connectionFailures i } := by
  obtain ⟨i, hi, -⟩ := kindIndex_of_mem (kind_mem he)
  refine ⟨i, ?_⟩
  simp only [Stats.connectionError, FailureCounts.record, hi]
  rfl

/-- One that is counted makes the sum greater by one. -/
theorem sum_bump {n : ℕ} (counts : Fin n → ℕ) (i : Fin n) :
    ∑ j, bump counts i j = ∑ j, counts j + 1 := by
  simp only [bump_apply, Finset.sum_add_distrib, Finset.sum_ite_eq', Finset.mem_univ, if_true]

/-- A task has returned. -/
theorem Metered.returned (h : Metered config policy tasks stats history) {n : ℕ}
    {c : ConnectionTask} {stats' : Stats} {result : Result Unit} (hn : tasks[n]? = some c)
    (hc : c.fate = .running) (hphase : c.driver.phase = .ended result)
    (hsafe : Result.Safe result) (hreturned : Returned stats result stats') :
    Metered config policy (tasks.set n { c with fate := .returned })
      { stats' with active := fetchSub stats'.active } history := by
  obtain ⟨hrunning, herrored, hlost, hevaluating⟩ :=
    countP_replace hn hc { c with fate := .returned }
  have hidle : c.driver.evaluating = false := by rw [Driver.evaluating, hphase]
  replace hrunning : _ + 1 = tasks.countP isRunning := hrunning
  rw [show isLost { c with fate := .returned } = false from rfl, Bool.toNat_false,
    Nat.add_zero] at hlost
  rw [show isEvaluating { c with fate := .returned } = false from rfl, hidle, Bool.toNat_false,
    Nat.add_zero, Nat.add_zero] at hevaluating
  -- What the return does to the counters: nothing, or one more error.
  obtain ⟨counts, errors, rfl, herrors, hcounts⟩ : ∃ counts errors,
      stats' = { stats with errors, connectionFailures := counts } ∧
      errors = stats.errors + (isErrored { c with fate := .returned }).toNat ∧
      ∑ i, counts i =
        ∑ i, stats.connectionFailures i + (isErrored { c with fate := .returned }).toNat := by
    cases hreturned with
    | closed =>
      rw [show isErrored { c with fate := .returned } = false by simp [isErrored, hphase]]
      exact ⟨stats.connectionFailures, stats.errors, rfl, rfl, (Nat.add_zero _).symm⟩
    | @failed e _ hrecord =>
      obtain ⟨i, hspec⟩ := connectionError_spec (hsafe e rfl) stats
      obtain rfl := Except.ok.inj (hrecord.symm.trans hspec)
      rw [show isErrored { c with fate := .returned } = true by simp [isErrored, hphase]]
      exact ⟨bump stats.connectionFailures i, stats.errors + 1, rfl, rfl, sum_bump _ i⟩
  have htotal : ∀ kind, total config policy (tasks.set n { c with fate := .returned }) history
      kind = total config policy tasks history kind := total_set n _
  constructor
  · rw [List.length_set]
    exact h.connections
  · show fetchSub stats.active = _
    rw [h.active, ← hrunning, fetchSub_succ]
  · rw [htotal]
    exact h.messages
  · rw [htotal]
    exact h.progress
  · rw [htotal]
    exact h.policyErrors
  · show errors = _
    rw [herrors, herrored, h.errors]
  · show ∑ i, counts i = _
    rw [hcounts, herrored, h.failures]
  · simp only [htotal, hlost, hevaluating]
    exact h.policy

/-- A task is dropped. -/
theorem Metered.dropped {s : Server} (h : Metered config policy tasks s.stats history) {n : ℕ}
    {c : ConnectionTask} {stats' : Stats} {fate : Fate} (hn : tasks[n]? = some c)
    (hc : c.fate = .running) (hheld : c.Held) (hfate : fate = .crashed ∨ fate = .aborted)
    (hdropped : Dropped s c stats') :
    Metered config policy (tasks.set n { c with observation := none, fate })
      { stats' with active := fetchSub stats'.active } history := by
  obtain ⟨hrunning, herrored, hlost, hevaluating⟩ :=
    countP_replace hn hc { c with observation := none, fate }
  have hkinds : isRunning { c with observation := none, fate } = false ∧
      isErrored { c with observation := none, fate } = false ∧
      isEvaluating { c with observation := none, fate } = false ∧
      isLost { c with observation := none, fate } = c.driver.evaluating := by
    rcases hfate with rfl | rfl <;> exact ⟨rfl, rfl, rfl, rfl⟩
  rw [hkinds.1] at hrunning
  replace hrunning : _ + 1 = tasks.countP isRunning := hrunning
  rw [hkinds.2.1, Bool.toNat_false, Nat.add_zero] at herrored
  rw [hkinds.2.2.1, Bool.toNat_false, Nat.add_zero] at hevaluating
  rw [hkinds.2.2.2] at hlost
  have htotal : ∀ kind, total config policy (tasks.set n { c with observation := none, fate })
      history kind = total config policy tasks history kind := total_set n _
  -- The observation the task holds is recorded as cancelled.
  obtain ⟨op, rfl, hop⟩ : ∃ op, stats' = { s.stats with policy := op } ∧ ∃ log,
      op.Accounts ((tasks.set n { c with observation := none, fate }).countP isEvaluating) log ∧
        (log.countP fun x => x.2 = "success") =
          total config policy tasks history Driver.isDecided ∧
        (log.countP fun x => x.2 = "cancelled") =
          tasks.countP isLost + c.driver.evaluating.toNat ∧
        log.length = total config policy tasks history Driver.isDecided +
          total config policy tasks history Driver.isFailed +
          (tasks.countP isLost + c.driver.evaluating.toNat) := by
    obtain ⟨log, haccounts, hsuccess, hcancelled, hlength⟩ := h.policy
    cases hdropped with
    | idle hnone =>
      have hidle : c.driver.evaluating = false := by rw [← hheld.evaluating, hnone]; rfl
      rw [hidle, Bool.toNat_false, Nat.add_zero] at hevaluating ⊢
      exact ⟨_, rfl, log, hevaluating ▸ haccounts, hsuccess, hcancelled, hlength⟩
    | @observed o op hsome hdrop =>
      have hbusy : c.driver.evaluating = true := by rw [← hheld.evaluating, hsome]; rfl
      have ho := hheld.outcome o hsome
      rw [hbusy, Bool.toNat_true] at hevaluating ⊢
      rw [← hevaluating] at haccounts
      obtain ⟨op', hdrop', hop⟩ := haccounts.drop s.clock o (ho ▸ known_cancelled)
      obtain rfl := Except.ok.inj (hdrop.symm.trans hdrop')
      refine ⟨_, rfl, _, hop, ?_, ?_, ?_⟩
      · rw [List.countP_cons, hsuccess, ho]
        rfl
      · rw [List.countP_cons, hcancelled, ho]
        rfl
      · rw [List.length_cons, hlength]
        rfl
  constructor
  · rw [List.length_set]
    exact h.connections
  · show fetchSub s.stats.active = _
    rw [h.active, ← hrunning, fetchSub_succ]
  · rw [htotal]
    exact h.messages
  · rw [htotal]
    exact h.progress
  · rw [htotal]
    exact h.policyErrors
  · rw [herrored]
    exact h.errors
  · rw [herrored]
    exact h.failures
  · simp only [htotal, hlost]
    exact hop

/-! ### The invariant along a run -/

/-- An event of no connection is in no history. -/
theorem ofConnection_snoc_none {event : ServerEvent} (h : event.toConnection = none)
    (past : List ServerEvent) : ofConnection (past ++ [event]) = ofConnection past :=
  Machine.addressed_none h past

/-- An event of a connection is in its history. -/
theorem ofConnection_snoc_self (past : List ServerEvent) (n : ℕ) (event : Event) :
    ofConnection (past ++ [.connection n event]) n = ofConnection past n ++ [event] :=
  Machine.addressed_self (show toConnection (.connection n event) = some (n, event) from rfl) past

/-- It is in no other. -/
theorem ofConnection_snoc_of_ne (past : List ServerEvent) {n k : ℕ} (event : Event) (hk : k ≠ n) :
    ofConnection (past ++ [.connection n event]) k = ofConnection past k :=
  Machine.addressed_of_ne (show toConnection (.connection n event) = some (n, event) from rfl) hk
    past

/-- A further event in the count of connections. -/
theorem isAccept_snoc (past : List ServerEvent) (event : ServerEvent) :
    (past ++ [event]).countP isAccept = past.countP isAccept + (isAccept event).toNat :=
  Machine.countP_concat isAccept past event

variable {s t : Server} {past : List ServerEvent}

/-- A step that leaves the tasks and their metrics alone. -/
theorem Inv.keeps {event : ServerEvent} (h : Inv config policy s past)
    (hevent : event.toConnection = none) (htasks : t.tasks = s.tasks)
    (hpermits : t.permits = s.permits)
    (hmetered : Metered config policy s.tasks t.stats (ofConnection past))
    (harrivals : t.stats.connections + t.stats.overload =
      s.stats.connections + s.stats.overload + (isAccept event).toNat) :
    Inv config policy t (past ++ [event]) where
  pooled := by
    rw [htasks, hpermits, ofConnection_snoc_none hevent]
    exact h.pooled
  metered := by
    rw [htasks, ofConnection_snoc_none hevent]
    exact hmetered
  arrivals := by rw [harrivals, h.arrivals, isAccept_snoc]

/-- The metrics of connections do not depend on those of the listener. -/
theorem Metered.listener (h : Metered config policy tasks stats history) (ready : Bool)
    (overload drainGraceful drainForced : ℕ) (listener : UInt8) :
    Metered config policy tasks
      { stats with ready, overload, drainGraceful, drainForced, listener } history :=
  ⟨h.connections, h.active, h.messages, h.progress, h.policyErrors, h.errors, h.failures, h.policy⟩

/-- A task that returns leaves the counters of the accept loop alone. -/
theorem Returned.front {stats stats' : Stats} {result : Result Unit}
    (h : Returned stats result stats') : SameFront stats stats' := by
  cases h with
  | closed => exact ⟨rfl, rfl, rfl, rfl, rfl, rfl⟩
  | @failed e _ hrecord =>
    unfold Stats.connectionError at hrecord
    cases hr : stats.connectionFailures.record e.kind with
    | error e' => rw [hr] at hrecord; cases hrecord
    | ok counts =>
      rw [hr] at hrecord
      obtain rfl := Except.ok.inj hrecord
      exact ⟨rfl, rfl, rfl, rfl, rfl, rfl⟩

/-- A task that is dropped leaves the counters of the accept loop alone. -/
theorem Dropped.front {c : ConnectionTask} {stats : Stats} (h : Dropped s c stats) :
    SameFront s.stats stats := by
  cases h with
  | idle => exact ⟨rfl, rfl, rfl, rfl, rfl, rfl⟩
  | observed => exact ⟨rfl, rfl, rfl, rfl, rfl, rfl⟩

/-- The counters are the same over two steps. -/
theorem SameFront.trans {a b c : Stats} (h : SameFront a b) (h' : SameFront b c) :
    SameFront a c :=
  ⟨h'.connections.trans h.connections, h'.overload.trans h.overload, h'.ready.trans h.ready,
    h'.listener.trans h.listener, h'.graceful.trans h.graceful, h'.forced.trans h.forced⟩

/-- A task that is released leaves the counters of the accept loop alone. -/
theorem SameFront.released {a b : Stats} (h : SameFront a b) (n : ℕ) (c : ConnectionTask) :
    SameFront a (s.release n c b).stats :=
  ⟨h.connections, h.overload, h.ready, h.listener, h.graceful, h.forced⟩

/-- The arrivals after a step of a task. -/
theorem arrivals_snoc {stats stats' : Stats} {event : ServerEvent}
    (h : stats.connections + stats.overload = past.countP isAccept)
    (hfront : SameFront stats stats') (haccept : isAccept event = false) :
    stats'.connections + stats'.overload = (past ++ [event]).countP isAccept := by
  rw [isAccept_snoc, haccept, Bool.toNat_false, Nat.add_zero, hfront.connections, hfront.overload]
  exact h

/-- A task is dropped, by a panic or an abort. -/
theorem Inv.dropped {event : ServerEvent} {n : ℕ} {c : ConnectionTask} {stats : Stats}
    {fate : Fate} (h : Inv config policy s past) (hevent : event.toConnection = none)
    (haccept : isAccept event = false) (hlive : s.live n = some c)
    (hfate : fate = .crashed ∧ c.driver.evaluating = true ∨ fate = .aborted)
    (hdropped : Dropped s c stats) :
    Inv config policy (s.release n { c with observation := none, fate } stats)
      (past ++ [event]) := by
  obtain ⟨hn, hc⟩ := live_some.mp hlive
  have hheld := (h.pooled.settled c (List.mem_of_getElem? hn)).held hc
  refine ⟨?_, ?_, ?_⟩
  · rw [ofConnection_snoc_none hevent]
    refine h.pooled.replace hn hc ?_ ?_ ?_
    · have hdrivers : (s.tasks.set n { c with observation := none, fate }).map (·.driver) =
          s.tasks.map (·.driver) := map_set_driver hn rfl
      rw [hdrivers]
      exact h.pooled.runs
    · rcases hfate with ⟨rfl, hevaluating⟩ | rfl
      · exact ⟨fun hf => (nomatch hf), fun hf => (nomatch hf), fun hf => (nomatch hf),
          fun _ => hevaluating⟩
      · exact ⟨fun hf => (nomatch hf), fun hf => (nomatch hf), fun hf => (nomatch hf),
          fun hf => (nomatch hf)⟩
    · rcases hfate with ⟨rfl, -⟩ | rfl <;> rfl
  · rw [ofConnection_snoc_none hevent]
    exact h.metered.dropped hn hc hheld (hfate.imp_left And.left) hdropped
  · exact arrivals_snoc h.arrivals (hdropped.front.released n _) haccept

/-- **The invariant is preserved by every step.** -/
theorem Inv.moves {event : ServerEvent} (h : Inv config policy s past)
    (hm : Moves config policy s event t) : Inv config policy t (past ++ [event]) := by
  cases hm with
  | wait elapsed => exact h.keeps rfl rfl rfl h.metered rfl
  | cancel => exact h.keeps rfl rfl rfl h.metered rfl
  | unready => exact h.keeps rfl rfl rfl (h.metered.listener _ _ _ _ _) rfl
  | overload hserving hpermits =>
    exact h.keeps rfl rfl rfl (h.metered.listener _ _ _ _ _) (Nat.add_assoc _ _ _).symm
  | take hserving hpermits =>
    refine ⟨?_, ?_, ?_⟩
    · rw [ofConnection_snoc_none rfl]
      exact h.pooled.take hpermits
    · rw [ofConnection_snoc_none rfl]
      exact h.metered.take h.pooled
    · rw [isAccept_snoc, ← h.arrivals]
      exact Nat.add_right_comm _ _ _
  | fail hserving => exact h.keeps rfl rfl rfl (h.metered.listener _ _ _ _ _) rfl
  | @goes n event c d observation stats hlive hpossible hdriver hcount hphase =>
    obtain ⟨hn, hc⟩ := live_some.mp hlive
    have hself := ofConnection_snoc_self past n event
    have hrest := fun k (hk : k ≠ n) => ofConnection_snoc_of_ne past event hk
    obtain ⟨observation', stats', hcount', hheld, hfront, hmetered⟩ :=
      h.metered.move h.pooled s.clock hn hc hpossible hdriver hself hrest
    obtain ⟨rfl, rfl⟩ := Prod.mk.inj (Except.ok.inj (hcount.symm.trans hcount'))
    refine ⟨?_, hmetered, arrivals_snoc h.arrivals hfront rfl⟩
    refine h.pooled.replace hn hc (h.pooled.runs_moved hn hdriver hself hrest) ?_ ?_
    · exact ⟨fun _ => hheld, fun _ => hphase, fun hf => (nomatch hc.symm.trans hf),
        fun hf => (nomatch hc.symm.trans hf)⟩
    · rw [show isRunning { c with driver := d, observation } = true from decide_eq_true hc]
      rfl
  | @returns n event c d observation stats stats' result hlive hpossible hdriver hcount hphase
      hret =>
    obtain ⟨hn, hc⟩ := live_some.mp hlive
    have hself := ofConnection_snoc_self past n event
    have hrest := fun k (hk : k ≠ n) => ofConnection_snoc_of_ne past event hk
    obtain ⟨observation', stats'', hcount', hheld, hfront, hmetered⟩ :=
      h.metered.move h.pooled s.clock hn hc hpossible hdriver hself hrest
    obtain ⟨rfl, rfl⟩ := Prod.mk.inj (Except.ok.inj (hcount.symm.trans hcount'))
    have hsafe : Result.Safe result := by
      rintro e rfl
      exact Driver.ended_safe (sound_of_runs h.pooled hn) hpossible hdriver hphase
    have hlt := (List.getElem?_eq_some_iff.mp hn).1
    have hreturned := hmetered.returned (List.getElem?_set_self hlt) hc hphase hsafe hret
    rw [List.set_set] at hreturned
    refine ⟨?_, hreturned, arrivals_snoc h.arrivals ((hfront.trans hret.front).released n _) rfl⟩
    refine h.pooled.replace hn hc (h.pooled.runs_moved hn hdriver hself hrest) ?_ rfl
    exact ⟨fun hf => (nomatch hf), fun hf => (nomatch hf), fun _ => ⟨result, hphase⟩,
      fun hf => (nomatch hf)⟩
  | crash hlive hevaluating hdropped =>
    exact h.dropped rfl rfl hlive (.inl ⟨rfl, hevaluating⟩) hdropped
  | abort hlive hserving hdropped => exact h.dropped rfl rfl hlive (.inr rfl) hdropped
  | leave hserving hstop => exact h.keeps rfl rfl rfl (h.metered.listener _ _ _ _ _) rfl
  | drained hserving hidle => exact h.keeps rfl rfl rfl (h.metered.listener _ _ _ _ _) rfl
  | deadline hserving hidle => exact h.keeps rfl rfl rfl (h.metered.listener _ _ _ _ _) rfl
  | joined hserving hidle => exact h.keeps rfl rfl rfl h.metered rfl

/-- A server that starts accepts, with all its permits. -/
theorem start_ok {ready : Bool} (h : start config ready = .ok s) :
    0 < config.maxConnections ∧ s = {
      serving := .accepting
      stop := false
      clock := 0
      permits := config.maxConnections
      tasks := []
      stats := { ready, listener := config.listener.id } } := by
  unfold start at h
  split at h
  next => cases h
  next hpos => exact ⟨Nat.pos_of_ne_zero hpos, (Except.ok.inj h).symm⟩

/-- What holds in every run holds at the start. -/
theorem Inv.initial {ready : Bool} (h : start config ready = .ok s) : Inv config policy s [] := by
  obtain ⟨-, rfl⟩ := start_ok h
  refine ⟨⟨⟨fun n m hm => (nomatch hm), fun n _ => rfl⟩, fun c hc => (nomatch hc), rfl⟩, ?_, rfl⟩
  exact ⟨rfl, rfl, rfl, rfl, rfl, rfl, Finset.sum_const_zero, [], .initial, rfl, rfl, rfl⟩

/-- **The invariant holds in every run.** -/
theorem Reaches.inv {ready : Bool} {events : List ServerEvent}
    (h : Reaches config policy ready events s) : Inv config policy s events := by
  obtain ⟨s₀, hstart, hrun⟩ := h
  exact Machine.exec_invariant_history hrun (.initial hstart) fun _ _ _ _ hstep hs =>
    hs.moves (next_moves hstep)

end Server

end MtaHooks
