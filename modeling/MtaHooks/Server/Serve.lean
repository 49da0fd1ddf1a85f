import MtaHooks.Server.Decisions
import MtaHooks.Server.Stats
import MtaHooks.Lib.Pool

namespace MtaHooks

open FallibleState

/-!
# The server

`serve` as a machine over the events of its environment: connections that arrive, the events
of each connection, the stop token, tasks that end, and the drain.  Tasks interleave in any
order; a task's end, with the guards it drops, is one step.

* `Server.step` — one event; it aborts where a counter lookup of the source would;
* `Server.Moves` — one constructor for each way the server moves;
* `Server.next_moves` — every step is one of these.
-/

/-- What the server listens on. -/
inductive Listener
  | tcp
  | unix
  deriving DecidableEq

/-- The value of the listener gauge. -/
def Listener.id : Listener → UInt8
  | .tcp => 1
  | .unix => 2

/-- The settings `serve` looks at. -/
structure ServerConfig extends Config where
  maxConnections : ℕ := 128
  listener : Listener := .tcp

/-- How the task of a connection stands. -/
inductive Fate
  | running
  /-- `handle_connection` has returned. -/
  | returned
  /-- The policy panicked; `join_next` reports it. -/
  | crashed
  /-- The task was aborted and dropped. -/
  | aborted
  deriving DecidableEq

/-- A connection that was accepted, and its task. -/
structure ConnectionTask where
  driver : Driver
  /-- The observation of the callback being evaluated. -/
  observation : Option Observation := none
  fate : Fate := .running

/-- Where `serve` is. -/
inductive Serving
  | accepting
  | draining
  /-- The drain deadline has passed and all tasks are told to abort. -/
  | aborting
  | returned
  /-- The accept loop failed, or the future of `serve` was dropped. -/
  | failed
  deriving DecidableEq

/-- The state of a server.  `tasks` has every accepted connection, the oldest first. -/
structure Server where
  serving : Serving
  /-- The stop token is cancelled. -/
  stop : Bool
  clock : ℕ
  /-- Free permits of the semaphore. -/
  permits : ℕ
  tasks : List ConnectionTask
  stats : Stats

/-- The events of the environment. -/
inductive ServerEvent
  | wait (elapsed : ℕ)
  | cancel
  /-- The ready flag is cleared from outside. -/
  | unready
  | accept
  /-- `accept` fails, or the future of `serve` is dropped. -/
  | fail
  /-- An event of the connection accepted as number `n`. -/
  | connection (n : ℕ) (event : Event)
  /-- The policy panics while it evaluates a callback of the connection. -/
  | crash (n : ℕ)
  /-- The aborted task of the connection is dropped. -/
  | abort (n : ℕ)
  /-- The accept loop sees the stop token. -/
  | leave
  | drained
  | deadline
  | joined

/-- An event a connection can meet: the stop token only once it is cancelled, and no error
    that stands for an abort. -/
def Event.possible (stop : Bool) : Event → Bool
  | .stop => stop
  | .readFailed e => !e.isPanic
  | .evaluated (.error e) => !e.isPanic
  | .tick (.torn _ e) => !e.isPanic
  | .write (.torn _ e) => !e.isPanic
  | _ => true

/-- The policy is being evaluated. -/
def Driver.evaluating (d : Driver) : Bool :=
  match d.phase with
  | .evaluating _ _ _ => true
  | _ => false

/-! ### What a connection counts -/

/-- Count a message at its end. -/
def Stats.countMessage (stage : Stage) (stats : Stats) : Stats :=
  if stage = .endMessage then { stats with messages := stats.messages + 1 } else stats

/-- A message is counted by a number that is one or zero. -/
theorem Stats.countMessage_eq (stage : Stage) (stats : Stats) :
    stats.countMessage stage =
      { stats with messages := stats.messages + (decide (stage = .endMessage)).toNat } := by
  unfold countMessage
  by_cases h : stage = .endMessage
  · rw [if_pos h, decide_eq_true h]
    rfl
  · rw [if_neg h, decide_eq_false h]
    rfl

namespace ConnectionTask

/-- The result of a callback: the policy's decision, applied to the session. -/
def completed (outcome : Result Decision) (s : Session) : Result (List Frame) := do
  let decision ← outcome
  (Session.complete decision s).1

/-- Finish the observation of a callback, if there is one, and count a policy error. -/
def judge (now : ℕ) (observation : Option Observation) (result : Result (List Frame))
    (stats : Stats) : Result Stats := do
  let stats ← match observation with
    | some o => do
      let policy ← o.finish now result stats.policy
      .ok { stats with policy }
    | none => .ok stats
  match result with
  | .ok _ => .ok stats
  | .error _ => .ok { stats with policyErrors := stats.policyErrors + 1 }

/-- What `handle_connection` counts of an event, and the observation it then holds. -/
def count (policy : Policy) (now : ℕ) (c : ConnectionTask) (event : Event) (stats : Stats) :
    Result (Option Observation × Stats) :=
  match c.driver.phase, event with
  | .reading, .frame frame =>
    match Session.receive frame c.driver.session with
    | (.error _, _) => .ok (none, stats)
    | (.ok step, s) =>
      match step.event with
      | none => .ok (none, stats)
      | some stage =>
        let stats := stats.countMessage stage
        if stage ∈ policy.stages then
          .ok (some (stats.policy.begin now).1, { stats with policy := (stats.policy.begin now).2 })
        else (judge now none (completed (.ok {}) s) stats).map (none, ·)
  | .evaluating _ _ _, .evaluated outcome =>
    (judge now c.observation (completed outcome c.driver.session) stats).map (none, ·)
  | .evaluating _ _ _, .deadline =>
    (judge now c.observation (.error .timeout) stats).map (none, ·)
  | .evaluating _ _ _, .tick write =>
    let stats := { stats with progress := stats.progress + 1 }
    match c.driver.writeFrame (.empty progress) write with
    | some (_, .error e) => (judge now c.observation (.error e) stats).map (none, ·)
    | _ => .ok (c.observation, stats)
  | _, _ => .ok (c.observation, stats)

end ConnectionTask

/-- The state of the listener is cleared. -/
def Stats.unlisten (stats : Stats) : Stats := { stats with ready := false, listener := 0 }

/-! ### One event -/

namespace Server

/-- `serve` up to its loop. -/
def start (config : ServerConfig) (ready : Bool) : Result Server :=
  if config.maxConnections = 0 then .error (.invalid "max_connections must be positive")
  else .ok {
    serving := .accepting
    stop := false
    clock := 0
    permits := config.maxConnections
    tasks := []
    stats := { ready, listener := config.listener.id } }

/-- The connection of a number, while its task runs. -/
def live (s : Server) (n : ℕ) : Option ConnectionTask :=
  s.tasks[n]?.filter fun c => c.fate = .running

/-- No task is running. -/
def idle (s : Server) : Bool := s.tasks.all fun c => c.fate ≠ .running

/-- The task of a connection is over: its guards give back the gauge and the permit. -/
def release (s : Server) (n : ℕ) (c : ConnectionTask) (stats : Stats) : Server :=
  { s with
    permits := s.permits + 1
    tasks := s.tasks.set n c
    stats := { stats with active := fetchSub stats.active } }

/-- The task of a connection goes on from an event, or returns. -/
def advance (s : Server) (n : ℕ) (c : ConnectionTask) (stats : Stats) : Result Server :=
  match c.driver.phase with
  | .ended (.ok ()) => .ok (s.release n { c with fate := .returned } stats)
  | .ended (.error e) => do
    let stats ← stats.connectionError e
    .ok (s.release n { c with fate := .returned } stats)
  | _ => .ok { s with tasks := s.tasks.set n c, stats }

/-- The task of a connection is dropped, and with it the observation it holds. -/
def discard (s : Server) (n : ℕ) (c : ConnectionTask) (fate : Fate) : Result Server := do
  let stats ← match c.observation with
    | some o => do
      let policy ← o.drop s.clock s.stats.policy
      .ok { s.stats with policy }
    | none => .ok s.stats
  .ok (s.release n { c with observation := none, fate } stats)

/-- A connection arrives. -/
def take (config : ServerConfig) (policy : Policy) (s : Server) : Server :=
  if s.permits = 0 then
    { s with stats := { s.stats with overload := s.stats.overload + 1 } }
  else
    { s with
      permits := s.permits - 1
      tasks := s.tasks ++ [{ driver := .new config.toConfig policy }]
      stats := { s.stats with
        connections := s.stats.connections + 1
        active := s.stats.active + 1 } }

/-- One event of the environment. -/
def step (config : ServerConfig) (policy : Policy) (s : Server) :
    ServerEvent → Option (Result Server)
  | .wait elapsed => some (.ok { s with clock := s.clock + elapsed })
  | .cancel => some (.ok { s with stop := true })
  | .unready => some (.ok { s with stats := { s.stats with ready := false } })
  | .accept => if s.serving = .accepting then some (.ok (s.take config policy)) else none
  | .fail =>
    if s.serving = .accepting ∨ s.serving = .draining ∨ s.serving = .aborting then
      some (.ok { s with serving := .failed, stats := s.stats.unlisten })
    else none
  | .connection n event => do
    let c ← s.live n
    if event.possible s.stop then
      let driver ← Driver.step config.toConfig policy c.driver event
      some do
        let (observation, stats) ← c.count policy s.clock event s.stats
        s.advance n { c with driver, observation } stats
    else none
  | .crash n => do
    let c ← s.live n
    if c.driver.evaluating then some (s.discard n c .crashed) else none
  -- Tasks are aborted by a forced drain, or because their set is dropped.
  | .abort n => do
    let c ← s.live n
    if s.serving = .aborting ∨ s.serving = .failed then some (s.discard n c .aborted) else none
  | .leave =>
    if s.serving = .accepting ∧ s.stop then
      some (.ok { s with serving := .draining, stats := s.stats.unlisten })
    else none
  | .drained =>
    if s.serving = .draining ∧ s.idle then
      some (.ok { s with
        serving := .returned
        stats := { s.stats with drainGraceful := s.stats.drainGraceful + 1 } })
    else none
  | .deadline =>
    if s.serving = .draining ∧ !s.idle then
      some (.ok { s with
        serving := .aborting
        stats := { s.stats with drainForced := s.stats.drainForced + 1 } })
    else none
  | .joined =>
    if s.serving = .aborting ∧ s.idle then some (.ok { s with serving := .returned })
    else none

/-- The next state, unless the event cannot happen or aborts. -/
def next (config : ServerConfig) (policy : Policy) (s : Server) (event : ServerEvent) :
    Option Server :=
  (step config policy s event).bind Except.toOption

/-! ### What an event can do -/

/-- The stats after a task is dropped: a live observation is recorded. -/
inductive Dropped (s : Server) (c : ConnectionTask) : Stats → Prop
  | idle (hnone : c.observation = none) : Dropped s c s.stats
  | observed {o : Observation} {policy : OperationStats} (hsome : c.observation = some o)
      (hdrop : o.drop s.clock s.stats.policy = .ok policy) :
    Dropped s c { s.stats with policy }

/-- The stats after `handle_connection` has returned. -/
inductive Returned (stats : Stats) : Result Unit → Stats → Prop
  | closed : Returned stats (.ok ()) stats
  | failed {e : Error} {stats' : Stats} (hrecord : stats.connectionError e = .ok stats') :
    Returned stats (.error e) stats'

/-- One constructor for each way the server moves. -/
inductive Moves (config : ServerConfig) (policy : Policy) (s : Server) :
    ServerEvent → Server → Prop
  | wait (elapsed : ℕ) :
    Moves config policy s (.wait elapsed) { s with clock := s.clock + elapsed }
  | cancel : Moves config policy s .cancel { s with stop := true }
  | unready : Moves config policy s .unready { s with stats := { s.stats with ready := false } }
  | overload (hserving : s.serving = .accepting) (hpermits : s.permits = 0) :
    Moves config policy s .accept
      { s with stats := { s.stats with overload := s.stats.overload + 1 } }
  | take (hserving : s.serving = .accepting) (hpermits : 0 < s.permits) :
    Moves config policy s .accept
      { s with
        permits := s.permits - 1
        tasks := s.tasks ++ [{ driver := .new config.toConfig policy }]
        stats := { s.stats with
          connections := s.stats.connections + 1
          active := s.stats.active + 1 } }
  | fail (hserving : s.serving = .accepting ∨ s.serving = .draining ∨ s.serving = .aborting) :
    Moves config policy s .fail { s with serving := .failed, stats := s.stats.unlisten }
  | goes {n : ℕ} {event : Event} {c : ConnectionTask} {d : Driver}
      {observation : Option Observation} {stats : Stats} (hlive : s.live n = some c)
      (hpossible : event.possible s.stop)
      (hdriver : Driver.step config.toConfig policy c.driver event = some d)
      (hcount : c.count policy s.clock event s.stats = .ok (observation, stats))
      (hphase : ∀ result, d.phase ≠ .ended result) :
    Moves config policy s (.connection n event)
      { s with tasks := s.tasks.set n { c with driver := d, observation }, stats }
  | returns {n : ℕ} {event : Event} {c : ConnectionTask} {d : Driver}
      {observation : Option Observation} {stats stats' : Stats} {result : Result Unit}
      (hlive : s.live n = some c) (hpossible : event.possible s.stop)
      (hdriver : Driver.step config.toConfig policy c.driver event = some d)
      (hcount : c.count policy s.clock event s.stats = .ok (observation, stats))
      (hphase : d.phase = .ended result) (hreturned : Returned stats result stats') :
    Moves config policy s (.connection n event)
      (s.release n { c with driver := d, observation, fate := .returned } stats')
  | crash {n : ℕ} {c : ConnectionTask} {stats : Stats} (hlive : s.live n = some c)
      (hevaluating : c.driver.evaluating = true) (hdropped : Dropped s c stats) :
    Moves config policy s (.crash n)
      (s.release n { c with observation := none, fate := .crashed } stats)
  | abort {n : ℕ} {c : ConnectionTask} {stats : Stats} (hlive : s.live n = some c)
      (hserving : s.serving = .aborting ∨ s.serving = .failed) (hdropped : Dropped s c stats) :
    Moves config policy s (.abort n)
      (s.release n { c with observation := none, fate := .aborted } stats)
  | leave (hserving : s.serving = .accepting) (hstop : s.stop = true) :
    Moves config policy s .leave { s with serving := .draining, stats := s.stats.unlisten }
  | drained (hserving : s.serving = .draining) (hidle : s.idle = true) :
    Moves config policy s .drained
      { s with
        serving := .returned
        stats := { s.stats with drainGraceful := s.stats.drainGraceful + 1 } }
  | deadline (hserving : s.serving = .draining) (hidle : s.idle = false) :
    Moves config policy s .deadline
      { s with
        serving := .aborting
        stats := { s.stats with drainForced := s.stats.drainForced + 1 } }
  | joined (hserving : s.serving = .aborting) (hidle : s.idle = true) :
    Moves config policy s .joined { s with serving := .returned }

/-- A live connection is an accepted one whose task runs. -/
theorem live_some {s : Server} {n : ℕ} {c : ConnectionTask} :
    s.live n = some c ↔ s.tasks[n]? = some c ∧ c.fate = .running := by
  simp [live, Option.filter_eq_some_iff]

/-- A dropped task is released, whatever it held. -/
theorem discard_ok {s t : Server} {n : ℕ} {c : ConnectionTask} {fate : Fate}
    (h : s.discard n c fate = .ok t) :
    ∃ stats, Dropped s c stats ∧ t = s.release n { c with observation := none, fate } stats := by
  unfold discard at h
  cases ho : c.observation with
  | none =>
    rw [ho] at h
    obtain rfl := Except.ok.inj h
    exact ⟨s.stats, .idle ho, rfl⟩
  | some o =>
    rw [ho] at h
    cases hdrop : o.drop s.clock s.stats.policy with
    | error e =>
      simp only [hdrop] at h
      exact nomatch h
    | ok policy =>
      simp only [hdrop] at h
      obtain rfl := Except.ok.inj h
      exact ⟨_, .observed ho hdrop, rfl⟩

/-- A task goes on, or it has returned. -/
theorem advance_ok {s t : Server} {n : ℕ} {c : ConnectionTask} {stats : Stats}
    (h : s.advance n c stats = .ok t) :
    (∀ result, c.driver.phase ≠ .ended result) ∧
        t = { s with tasks := s.tasks.set n c, stats } ∨
      ∃ result stats', c.driver.phase = .ended result ∧ Returned stats result stats' ∧
        t = s.release n { c with fate := .returned } stats' := by
  unfold advance at h
  split at h
  next hphase =>
    obtain rfl := Except.ok.inj h
    exact .inr ⟨_, stats, hphase, .closed, rfl⟩
  next e hphase =>
    cases hrecord : stats.connectionError e with
    | error e' =>
      rw [hrecord] at h
      exact nomatch h
    | ok stats' =>
      rw [hrecord] at h
      obtain rfl := Except.ok.inj h
      exact .inr ⟨_, stats', hphase, .failed hrecord, rfl⟩
  next hok herror =>
    obtain rfl := Except.ok.inj h
    refine .inl ⟨fun result hphase => ?_, rfl⟩
    cases result with
    | ok _ => exact hok hphase
    | error e => exact herror e hphase

/-- A step behind a guard. -/
theorem guarded_ok {p : Prop} [Decidable p] {t u : Server}
    (h : (if p then some (.ok t) else none : Option (Result Server)) = some (.ok u)) :
    p ∧ t = u := by
  split at h
  next hp => exact ⟨hp, Except.ok.inj (Option.some.inj h)⟩
  next => exact nomatch h

/-- An event does one of these. -/
theorem next_moves {config : ServerConfig} {policy : Policy} {s t : Server} {event : ServerEvent}
    (h : next config policy s event = some t) : Moves config policy s event t := by
  obtain ⟨r, hstep, hr⟩ := Option.bind_eq_some_iff.mp h
  obtain rfl : r = .ok t := by
    cases r with
    | error e => exact nomatch hr
    | ok u => exact congrArg Except.ok (Option.some.inj hr)
  cases event with
  | wait elapsed =>
    obtain rfl := Except.ok.inj (Option.some.inj hstep)
    exact .wait elapsed
  | cancel =>
    obtain rfl := Except.ok.inj (Option.some.inj hstep)
    exact .cancel
  | unready =>
    obtain rfl := Except.ok.inj (Option.some.inj hstep)
    exact .unready
  | accept =>
    obtain ⟨hserving, rfl⟩ := guarded_ok hstep
    unfold take
    split
    next hpermits => exact .overload hserving hpermits
    next hpermits => exact .take hserving (Nat.pos_of_ne_zero hpermits)
  | fail =>
    obtain ⟨hserving, rfl⟩ := guarded_ok hstep
    exact .fail hserving
  | connection n event =>
    obtain ⟨c, hlive, hstep⟩ := Option.bind_eq_some_iff.mp hstep
    split at hstep
    next hpossible =>
      obtain ⟨d, hdriver, hstep⟩ := Option.bind_eq_some_iff.mp hstep
      cases hcount : c.count policy s.clock event s.stats with
      | error e =>
        rw [hcount] at hstep
        exact nomatch Option.some.inj hstep
      | ok counted =>
        rw [hcount] at hstep
        rcases advance_ok (Option.some.inj hstep) with
          ⟨hphase, rfl⟩ | ⟨r, stats', hphase, hret, rfl⟩
        · exact .goes hlive hpossible hdriver hcount hphase
        · exact .returns hlive hpossible hdriver hcount hphase hret
    next => exact nomatch hstep
  | crash n =>
    obtain ⟨c, hlive, hstep⟩ := Option.bind_eq_some_iff.mp hstep
    split at hstep
    next hevaluating =>
      obtain ⟨stats, hdropped, rfl⟩ := discard_ok (Option.some.inj hstep)
      exact .crash hlive hevaluating hdropped
    next => exact nomatch hstep
  | abort n =>
    obtain ⟨c, hlive, hstep⟩ := Option.bind_eq_some_iff.mp hstep
    split at hstep
    next hserving =>
      obtain ⟨stats, hdropped, rfl⟩ := discard_ok (Option.some.inj hstep)
      exact .abort hlive hserving hdropped
    next => exact nomatch hstep
  | leave =>
    obtain ⟨hguard, rfl⟩ := guarded_ok hstep
    exact .leave hguard.1 hguard.2
  | drained =>
    obtain ⟨hguard, rfl⟩ := guarded_ok hstep
    exact .drained hguard.1 hguard.2
  | deadline =>
    obtain ⟨hguard, rfl⟩ := guarded_ok hstep
    exact .deadline hguard.1 (by simpa using hguard.2)
  | joined =>
    obtain ⟨hguard, rfl⟩ := guarded_ok hstep
    exact .joined hguard.1 hguard.2

end Server

end MtaHooks
