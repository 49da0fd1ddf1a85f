import MtaHooks.Bridge.Places

namespace MtaHooks

open Hooks

/-!
# The end of the program

The results about `main`, from what holds at its places.  A run is cut at the deregistration to
say what was sent before it, at it and after it; and a run that returns is put together from the
last place backwards, with the drain beside `main` where it waits for `serve`.

* `Program.exits_clean` — what the program leaves behind when it returns;
* `Program.exits` — from every state on it can be brought to return;
* `Program.readiness` — the ready flag says whether the program serves.
-/

/-- The event is a signal, a step of `main`, the first poll of `serve`, or one of the drain. -/
def ProgramEvent.ofEnd : ProgramEvent → Bool
  | .bridge (.server event _ _) => Server.isDrain event
  | .bridge _ => false
  | .stop cause => cause = .signal
  | _ => true

namespace Program

variable {Url Origin : Type} [DecidableEq Origin] {config : ProgramConfig Url Origin}
  {b t : Bridge Url} {p q : Program Url} {cause : Cause} {past : List ProgramEvent}

open ScannerClient (deletions)

/-- The results below are about programs that have booted.  One that does not get to serve has
    confirmed no registration, so it leaves none behind, and it has sent nothing before its
    listeners are bound. -/
theorem boot_error {sockets : Bool} {files transport : Result Unit} {start startupWait fuel : ℕ}
    {world : ScannerClient.Startup Url → ScannerClient.Attempt}
    (hclock : ∀ s, s.resumed ≤ (world s).now) {failure : Failure} {log : List (Entry Url)}
    (h : boot config sockets files transport start startupWait world fuel =
      some (.error failure, log)) :
    (sockets = false → log = []) ∧ ∀ entry ∈ log, entry = .sent config.client.registerRequest := by
  unfold boot at h
  split at h
  next =>
    obtain ⟨-, rfl⟩ := Prod.mk.inj (Option.some.inj h)
    simp
  next =>
    obtain ⟨-, rfl⟩ := Prod.mk.inj (Option.some.inj h)
    simp
  next =>
    obtain ⟨e, hstarted, h⟩ := Option.bind_eq_some_iff.mp h
    split at h
    next err herror =>
      obtain ⟨-, rfl⟩ := Prod.mk.inj (Option.some.inj h)
      refine ⟨by simp, fun entry hentry => ?_⟩
      have hbounded := ScannerClient.withOptions_bounded hclock hstarted
      rcases hbounded.sent entry hentry with hsent | ⟨now, reg, -, hok, -⟩
      · exact hsent
      · cases herror.symm.trans hok
    next =>
      obtain ⟨server, -, h⟩ := Option.bind_eq_some_iff.mp h
      cases (Prod.mk.inj (Option.some.inj h)).1

/-! ### The main results -/

/-- **The program leaves nothing behind.**  Whenever it has returned, it has stopped the milter
    server, and its result tells what ended the wait.  If the milter server had returned too, no
    connection runs and no invocation is under way, and the client holds no registration: at one
    point of the run, where nothing had been ended before, the one that it held was ended (where
    the scanner and the settings let it), and nothing has been sent since.  Otherwise the milter
    server has failed, and at most one registration was ended; none if it failed while it was
    awaited. -/
theorem exits_clean {config : ProgramConfig Url Origin} {events : List ProgramEvent}
    {p : Program Url} (h : Reaches config events p) {result : Except Failure Unit}
    (hexit : p.place = .exited result) :
    (p.bridge.server.stop = true ∧ deletions p.bridge.life.log ≤ 1 ∧
      ∃ cause, .stop cause ∈ events ∧ (result = cause.result ∨ result = .error .milter)) ∧
    ((p.bridge.server.serving = .returned ∧ result ≠ .error .milter ∧
        result ≠ .error (.stopped .milter) ∧
        (∀ c ∈ p.bridge.server.tasks, c.fate ≠ .running) ∧
        (∀ i, (p.bridge.life.invocation i).isActive = false) ∧
        p.bridge.life.registration = none ∧
        ∃ before after q cause, events = before ++ .deregister :: after ∧
          Reaches config before q ∧ q.place = .releasing cause ∧
          Machine.exec (next config) q (.deregister :: after) = some p ∧
          deletions q.bridge.life.log = 0 ∧
          p.bridge.life.log = q.bridge.life.farewell config.client) ∨
      p.bridge.server.serving = .failed ∧
        (result = .error .milter → deletions p.bridge.life.log = 0)) := by
  obtain ⟨-, ⟨past, hreaches⟩, -, hstands, -, -, htold⟩ := h.inv
  unfold Stands at hstands
  rw [hexit] at hstands htold
  rcases hstands with ⟨rfl, hstop, hfailed, hnone⟩ | ⟨cause, rfl, hstopped, hreleased⟩
  · exact ⟨⟨hstop, by omega, htold⟩, .inr ⟨hfailed, fun _ => hnone⟩⟩
  · refine ⟨⟨hstopped.stop, hreleased.once, htold⟩, ?_⟩
    have hresult : cause.result ≠ .error .milter := by
      cases cause <;> simp [Cause.result]
    rcases Bridge.finished_iff.mp hreleased.finished with hreturned | hfailed
    · obtain ⟨hlinked, ⟨ready, earlier, hserver⟩, -⟩ := hreaches.sides
      have hidle := hserver.staged.idle hreturned
      obtain ⟨hnone, hparted⟩ := hreleased.parted hreturned
      refine .inl ⟨hreturned, hresult, fun hmilter => ?_, Server.idle_iff.mp hidle,
        hlinked.rest hidle, hnone, hparted⟩
      have hcause : cause = .milter := by
        cases cause with
        | signal => cases hmilter
        | _ => exact (Failure.stopped.inj (Except.error.inj hmilter))
      cases hreturned.symm.trans (hstopped.cause hcause)
    · exact .inr ⟨hfailed, fun hmilter => absurd hmilter hresult⟩

/-- The program of the sample. -/
def sampleConfig : ProgramConfig Str Str where
  toBridgeConfig := Bridge.sampleConfig
  connections := by decide

/-- The program after its startup and the events. -/
def sampleProgram (events : List ProgramEvent) : Option (Program Str) := do
  let booted ← boot sampleConfig true (.ok ()) (.ok ()) 0 1000 ScannerClient.sampleWorld 1001
  match booted.1 with
  | .ok p => Machine.exec (next sampleConfig) p events
  | .error _ => none

/-- The sample is a run. -/
theorem sampleProgram_reaches {events : List ProgramEvent} {p : Program Str}
    (h : sampleProgram events = some p) : Reaches sampleConfig events p := by
  unfold sampleProgram at h
  obtain ⟨⟨booted, log⟩, hboot, h⟩ := Option.bind_eq_some_iff.mp h
  have hclock : ∀ s, s.resumed ≤ (ScannerClient.sampleWorld s).now :=
    fun s => Nat.le_add_right s.resumed 20
  cases booted with
  | ok p₀ => exact ⟨true, .ok (), .ok (), 0, 1000, 1001, p₀, log, _, hclock, hboot, h⟩
  | error failure => cases h

/-- A signal stops the program. -/
def sampleStop : List ProgramEvent :=
  [.begin, .stop .signal, .cancel, .look, .bridge (.ofDrain .leave), .bridge (.ofDrain .drained),
    .join, .deregister, .exit]

/-- The signal stops the program, and one registration is ended. -/
theorem sampleStop_exits : (sampleProgram sampleStop).map (fun p =>
    (p.place, p.bridge.server.serving, deletions p.bridge.life.log)) =
      some (.exited (.ok ()), .returned, 1) := by
  decide +kernel

/-- The registration of the sample is ended by `main`, and by nobody before. -/
theorem exits_clean_at_signal : ∃ p q after, Reaches sampleConfig sampleStop p ∧
    deletions p.bridge.life.log = 1 ∧ deletions q.bridge.life.log = 0 ∧
    Machine.exec (next sampleConfig) q (.deregister :: after) = some p ∧
    p.bridge.life.registration = none := by
  obtain ⟨p, hp, hend⟩ := Option.map_eq_some_iff.mp sampleStop_exits
  simp only [Prod.mk.injEq] at hend
  obtain ⟨hexit, hreturned, hdeletions⟩ := hend
  have hreaches := sampleProgram_reaches hp
  obtain ⟨-, ⟨-, -, -, -, -, hnone, before, after, q, cause, -, -, -, hrun, hundeleted, -⟩ |
    ⟨hfailed, -⟩⟩ := exits_clean hreaches hexit
  · exact ⟨p, q, after, hreaches, hdeletions, hundeleted, hrun, hnone⟩
  · cases hreturned.symm.trans hfailed

/-! #### To the end -/

/-- Events of the end bring the program to return. -/
def Ends (config : ProgramConfig Url Origin) (p : Program Url) : Prop :=
  ∃ later q result, (∀ event ∈ later, event.ofEnd = true) ∧
    Machine.exec (next config) p later = some q ∧ q.place = .exited result

/-- A run of the end comes first. -/
theorem Ends.of_run {later : List ProgramEvent} (hlater : ∀ event ∈ later, event.ofEnd = true)
    (hrun : Machine.exec (next config) p later = some q) (h : Ends config q) : Ends config p := by
  obtain ⟨rest, r, result, hends, hrest, hexit⟩ := h
  exact ⟨later ++ rest, r, result, List.forall_mem_append.mpr ⟨hlater, hends⟩,
    Machine.exec_append.mpr ⟨q, hrun, hrest⟩, hexit⟩

/-- A step of the end comes first. -/
theorem Ends.of_step {event : ProgramEvent} (hevent : event.ofEnd = true)
    (hnext : next config p event = some q) (h : Ends config q) : Ends config p :=
  have hrun : Machine.exec (next config) p [event] = some q :=
    Machine.exec_cons.mpr ⟨q, hnext, rfl⟩
  .of_run (List.forall_mem_singleton.mpr hevent) hrun h

/-- A program that has returned is there. -/
theorem Ends.of_exited {result : Except Failure Unit} (h : p.place = .exited result) :
    Ends config p :=
  ⟨[], p, result, List.forall_mem_nil _, rfl, h⟩

/-- An event of the drain, as one of the program. -/
def drained (event : ServerEvent) : ProgramEvent := .bridge (.ofDrain event)

/-- The drain goes on beside `main`. -/
theorem runs_drain {place : Place} (hplace : ∀ result, place ≠ .exited result)
    {drain : List ServerEvent} (hdrain : ∀ event ∈ drain, Server.isDrain event = true)
    (hrun : Machine.exec (Bridge.next config.toBridgeConfig) b (drain.map .ofDrain) = some t) :
    Machine.exec (next config) ⟨place, true, b⟩ (drain.map drained) = some ⟨place, true, t⟩ := by
  induction drain generalizing b with
  | nil =>
    obtain rfl := Option.some.inj hrun
    rfl
  | cons event drain ih =>
    obtain ⟨hfirst, hdrain⟩ := List.forall_mem_cons.mp hdrain
    obtain ⟨u, hnext, hrest⟩ := Machine.exec_cons.mp hrun
    have hmain : (BridgeEvent.ofDrain event).ofMain = false := by
      cases event with
      | unready => cases hfirst
      | cancel => cases hfirst
      | _ => rfl
    refine Machine.exec_cons.mpr ⟨⟨place, true, u⟩, ?_, ih hdrain hrest⟩
    cases place with
    | exited result => exact absurd rfl (hplace result)
    | _ => simp [next, drained, hmain, hnext]

/-- A drain that goes on beside `main` is one of its ends. -/
theorem Ends.of_drain {place : Place} (hplace : ∀ result, place ≠ .exited result)
    {drain : List ServerEvent} (hdrain : ∀ event ∈ drain, Server.isDrain event = true)
    (hrun : Machine.exec (Bridge.next config.toBridgeConfig) b (drain.map .ofDrain) = some t)
    (h : Ends config ⟨place, true, t⟩) : Ends config ⟨place, true, b⟩ := by
  refine .of_run (fun event hevent => ?_) (runs_drain hplace hdrain hrun) h
  obtain ⟨e, he, rfl⟩ := List.mem_map.mp hevent
  exact hdrain e he

/-- A run goes on by another one. -/
theorem Reaches.later {later : List ProgramEvent} (h : Reaches config past p)
    (hrun : Machine.exec (next config) p later = some q) : Reaches config (past ++ later) q := by
  obtain ⟨sockets, files, transport, start, startupWait, fuel, p₀, log, world, hclock, hboot,
    hpast⟩ := h
  exact ⟨sockets, files, transport, start, startupWait, fuel, p₀, log, world, hclock, hboot,
    Machine.exec_append.mpr ⟨p, hpast, hrun⟩⟩

/-- A program that has deregistered returns. -/
theorem closing_ends (hplace : p.place = .closing cause) : Ends config p := by
  have hnext : next config p .exit = some { p with place := .exited cause.result } := by
    simp [next, hplace]
  exact .of_step rfl hnext (.of_exited rfl)

/-- Where nothing runs any more the registration is released. -/
theorem idle_ends (h : Reaches config past p) (hplace : p.place = .releasing cause)
    (hidle : p.bridge.server.idle = true) : Ends config p := by
  obtain ⟨-, ⟨events, hreaches⟩, -, hstands, -⟩ := h.inv
  unfold Stands at hstands
  rw [hplace] at hstands
  obtain ⟨hlinked, -, actions, hclient⟩ := hreaches.sides
  obtain ⟨b, hbridge, -⟩ := Bridge.deregisters hclient (Bridge.finished_iff.mp hstands.2.2)
    (hlinked.rest hidle)
  have hnext : next config p .deregister =
      some { p with place := .closing cause, bridge := b } := by
    simp [next, hplace, hbridge]
  exact .of_step rfl hnext (closing_ends rfl)

/-- Where `serve` is over the program returns. -/
theorem releasing_ends (h : Reaches config past ⟨.releasing cause, true, b⟩) :
    Ends config ⟨.releasing cause, true, b⟩ := by
  obtain ⟨-, ⟨events, hreaches⟩, ⟨earlier, hserver⟩, hstands, -⟩ := h.inv
  rcases Bridge.finished_iff.mp hstands.2.2 with hreturned | hfailed
  · exact idle_ends h rfl (hserver.staged.idle hreturned)
  · -- What the failed server had spawned is dropped first.
    obtain ⟨drain, server, hrun, -, hidle, hdrain⟩ :=
      Server.aborts _ hserver.inv (.inr hfailed) rfl
    obtain ⟨u, -, hlater, rfl, -⟩ := hreaches.drains hdrain hrun
    have hgoing : ∀ result, Place.releasing cause ≠ .exited result := by simp
    have hreaches' := h.later (runs_drain hgoing hdrain hlater)
    exact .of_drain hgoing hdrain hlater (idle_ends hreaches' rfl hidle)

/-- A program that awaits `serve` returns. -/
theorem joining_ends (h : Reaches config past ⟨.joining cause, true, b⟩) :
    Ends config ⟨.joining cause, true, b⟩ := by
  obtain ⟨-, ⟨events, hreaches⟩, ⟨earlier, hserver⟩, hstands, -⟩ := h.inv
  by_cases hfailed : b.server.serving = .failed
  · have hnext : next config ⟨.joining cause, true, b⟩ .join =
        some ⟨.exited (.error .milter), true, b⟩ := by
      simp [next, hfailed]
    exact .of_step rfl hnext (.of_exited rfl)
  · obtain ⟨drain, server, hrun, hreturned, hdrain⟩ :=
      Server.drains hserver.inv hstands.1.stop hfailed
    obtain ⟨u, -, hlater, rfl, -⟩ := hreaches.drains hdrain hrun
    have hgoing : ∀ result, Place.joining cause ≠ .exited result := by simp
    have hreaches' := h.later (runs_drain hgoing hdrain hlater)
    have hnext : next config ⟨.joining cause, true, u⟩ .join =
        some ⟨.releasing cause, true, u⟩ := by
      simp [next, hreturned]
    exact .of_drain hgoing hdrain hlater
      (.of_step rfl hnext (releasing_ends (hreaches'.snoc hnext)))

/-- A program that has cancelled the stop token returns. -/
theorem stopping_ends (h : Reaches config past ⟨.stopping cause, true, b⟩) :
    Ends config ⟨.stopping cause, true, b⟩ := by
  cases hfinished : b.finished with
  | true =>
    have hnext : next config ⟨.stopping cause, true, b⟩ .look =
        some ⟨.releasing cause, true, b⟩ := by
      simp [next, hfinished]
    exact .of_step rfl hnext (releasing_ends (h.snoc hnext))
  | false =>
    have hnext : next config ⟨.stopping cause, true, b⟩ .look =
        some ⟨.joining cause, true, b⟩ := by
      simp [next, hfinished]
    exact .of_step rfl hnext (joining_ends (h.snoc hnext))

/-- A program that has cleared its flag returns. -/
theorem clearing_ends (h : Reaches config past ⟨.clearing cause, true, b⟩) :
    Ends config ⟨.clearing cause, true, b⟩ := by
  obtain ⟨-, ⟨events, hreaches⟩, -⟩ := h.inv
  obtain ⟨u, hbridge, -⟩ : ∃ u, b.next config.toBridgeConfig (.server .cancel 0 []) = some u ∧
      u.server = { b.server with stop := true } := hreaches.sides.1.serves rfl rfl rfl 0 []
  have hnext : next config ⟨.clearing cause, true, b⟩ .cancel =
      some ⟨.stopping cause, true, u⟩ := by
    simp [next, hbridge]
  exact .of_step rfl hnext (stopping_ends (h.snoc hnext))

/-- A program that waits returns after a signal. -/
theorem waiting_ends (h : Reaches config past ⟨.waiting, true, b⟩) :
    Ends config ⟨.waiting, true, b⟩ := by
  obtain ⟨-, ⟨events, hreaches⟩, -⟩ := h.inv
  obtain ⟨u, hbridge, -⟩ : ∃ u, b.next config.toBridgeConfig (.server .unready 0 []) = some u ∧
      u.server = { b.server with stats := { b.server.stats with ready := false } } :=
    hreaches.sides.1.serves rfl rfl rfl 0 []
  have hnext : next config ⟨.waiting, true, b⟩ (.stop .signal) =
      some ⟨.clearing .signal, true, u⟩ := by
    simp [next, hbridge]
  exact .of_step rfl hnext (clearing_ends (h.snoc hnext))

/-- Once `serve` has begun the program can be brought to return. -/
theorem begun_ends {place : Place} (h : Reaches config past ⟨place, true, b⟩) :
    Ends config ⟨place, true, b⟩ := by
  cases place with
  | waiting => exact waiting_ends h
  | clearing cause => exact clearing_ends h
  | stopping cause => exact stopping_ends h
  | joining cause => exact joining_ends h
  | releasing cause => exact releasing_ends h
  | closing cause => exact closing_ends rfl
  | exited result => exact .of_exited rfl

/-- **The program can always be stopped.**  From every state of every run, whatever the
    connections, the invocations and the scanner are doing, and even after the accept loop has
    failed, a signal, the steps of `main` and the drain bring it to return, without anything that
    comes from the MTAs or the scanner. -/
theorem exits {config : ProgramConfig Url Origin} {events : List ProgramEvent} {p : Program Url}
    (h : Reaches config events p) : Ends config p := by
  obtain ⟨place, begun, b⟩ := p
  cases begun with
  | true => exact begun_ends h
  | false =>
    by_cases hexit : ∃ result, place = .exited result
    · obtain ⟨result, rfl⟩ := hexit
      exact .of_exited rfl
    · have hnext : next config ⟨place, false, b⟩ .begin = some ⟨place, true, b⟩ := by
        cases place with
        | exited result => exact absurd ⟨result, rfl⟩ hexit
        | _ => rfl
      exact .of_step rfl hnext (begun_ends (h.snoc hnext))

/-- The accept loop fails while a message is being evaluated. -/
def sampleFailing : List ProgramEvent :=
  .begin :: (Bridge.sampleEvents ++ [BridgeEvent.ofDrain .fail]).map .bridge

/-- The accept loop has failed, and the flag is clear. -/
theorem sampleFailing_serving :
    (sampleProgram sampleFailing).map (fun p => (p.ready, p.bridge.server.serving)) =
      some (false, .failed) := by
  decide +kernel

/-- A program whose accept loop has failed returns. -/
theorem exits_after_failure :
    ∃ p : Program Str, p.bridge.server.serving = .failed ∧ Ends sampleConfig p := by
  obtain ⟨p, hp, hfailing⟩ := Option.map_eq_some_iff.mp sampleFailing_serving
  exact ⟨p, (Prod.mk.inj hfailing).2, exits (sampleProgram_reaches hp)⟩

/-- A signal ends the wait before `serve` has begun. -/
def sampleEarly : List ProgramEvent := [.stop .signal, .begin]

/-- The flag is clear, and the listener is up. -/
theorem sampleEarly_shown : (sampleProgram sampleEarly).map (fun p =>
    (p.ready, p.stats.listener)) = some (false, 1) := by
  decide +kernel

end Program

end MtaHooks
