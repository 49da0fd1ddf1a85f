import MtaHooks.Bridge.Closing

namespace MtaHooks

open Hooks
open ScannerClient (Life Current)

/-!
# The program

`main` around the bridge, with a scanner: it binds its listeners before it registers, sets the
ready flag, spawns `serve` and waits.  When a signal, the HTTP server or the milter server ends
the wait, it clears the flag, stops the milter server, releases the registration and returns.
Once it has returned its tasks are gone.

The tasks of the program run side by side, and the ready flag, the stop token and the gauges are
shared between them.  So a step of `main` has one access to them: it clears the flag in one step
and cancels the token in the next, and `serve` may begin before, between or after them.  What
`main` does by itself, such as to take note of what has ended its wait, belongs to the step that
follows.

* `Program.boot` — up to the wait;
* `Program.stats` — what the HTTP server shows;
* `Program.next` — one step of `main`, or of what it has spawned;
* `Program.next_moves` — what a step can do;
* `Program.Stands` — what holds at each place of `main`.
-/

/-- What ends the wait of `main`. -/
inductive Cause
  /-- An interrupt, or the request to terminate. -/
  | signal
  /-- Signals cannot be waited for. -/
  | signals
  | http
  | milter
  deriving DecidableEq

/-- Why `main` returns an error. -/
inductive Failure
  /-- A listener cannot be bound. -/
  | socket
  | startup (e : Error)
  | stopped (cause : Cause)
  /-- The milter server fails after it is told to stop. -/
  | milter
  deriving DecidableEq

/-- Where `main` is. -/
inductive Place
  | waiting
  /-- The wait is over, and the ready flag is cleared. -/
  | clearing (cause : Cause)
  /-- The stop token is cancelled. -/
  | stopping (cause : Cause)
  /-- The milter server is awaited. -/
  | joining (cause : Cause)
  | releasing (cause : Cause)
  /-- The HTTP server is awaited. -/
  | closing (cause : Cause)
  | exited (result : Except Failure Unit)
  deriving DecidableEq

/-- The settings of the program.  The command line takes no empty number of connections. -/
structure ProgramConfig (Url Origin : Type) extends BridgeConfig Url Origin where
  connections : 0 < server.maxConnections

/-- `main` and the bridge it has started. -/
structure Program (Url : Type) where
  place : Place
  /-- The task of `serve` has been polled. -/
  begun : Bool
  bridge : Bridge Url

/-- The events of the environment. -/
inductive ProgramEvent
  /-- An event of the bridge; there is none before `serve` has begun. -/
  | bridge (event : BridgeEvent)
  /-- The task of `serve` is polled for the first time. -/
  | begin
  /-- The wait is over, and `main` clears the ready flag. -/
  | stop (cause : Cause)
  /-- `main` cancels the stop token. -/
  | cancel
  /-- `main` looks whether the milter server has finished. -/
  | look
  | join
  | deregister
  | exit

/-- Only `main` clears the ready flag, stops the server and deregisters the client. -/
def BridgeEvent.ofMain : BridgeEvent → Bool
  | .server .unready _ _ | .server .cancel _ _ | .deregister => true
  | _ => false

/-- `serve` is over. -/
def Bridge.finished {Url : Type} (b : Bridge Url) : Bool :=
  b.server.serving = .returned || b.server.serving = .failed

/-- What `main` returns after the wait. -/
def Cause.result : Cause → Except Failure Unit
  | .signal => .ok ()
  | cause => .error (.stopped cause)

namespace Program

variable {Url Origin : Type} [DecidableEq Origin] (config : ProgramConfig Url Origin)

/-- `main` up to its wait; `sockets` is the answer of the two listeners, `files` that of the
    credentials and certificates.  What is sent by then is in the log.  The ready flag is set
    once the client has registered, before `serve` is spawned. -/
def boot (sockets : Bool) (files transport : Result Unit) (start startupWait : ℕ)
    (world : ScannerClient.Startup Url → ScannerClient.Attempt) (fuel : ℕ) :
    Option (Except Failure (Program Url) × List (Entry Url)) :=
  match sockets, files with
  | false, _ => some (.error .socket, [])
  | true, .error err => some (.error (.startup err), [])
  | true, .ok () => do
    let e ← config.client.withOptions transport start startupWait world fuel
    match e.result with
    | .error err => return (.error (.startup err), e.log)
    | .ok reg => do
      let server ← (Server.start config.server true).toOption
      let bridge := .started server e.log reg
      return (.ok { place := .waiting, begun := false, bridge }, e.log)

/-- The next state. -/
def next (p : Program Url) : ProgramEvent → Option (Program Url)
  | .bridge event =>
    match p.place with
    | .exited _ => none
    | _ =>
      if event.ofMain || !p.begun then none
      else do
        let bridge ← p.bridge.next config.toBridgeConfig event
        return { p with bridge }
  | .begin =>
    match p.place with
    | .exited _ => none
    | _ => if p.begun then none else some { p with begun := true }
  | .stop cause =>
    match p.place with
    | .waiting =>
      if cause = .milter && !p.bridge.finished then none
      else do
        let bridge ← p.bridge.next config.toBridgeConfig (.server .unready 0 [])
        return { p with place := .clearing cause, bridge }
    | _ => none
  | .cancel =>
    match p.place with
    | .clearing cause => do
      let bridge ← p.bridge.next config.toBridgeConfig (.server .cancel 0 [])
      return { p with place := .stopping cause, bridge }
    | _ => none
  | .look =>
    match p.place with
    | .stopping cause =>
      some { p with place := if p.bridge.finished then .releasing cause else .joining cause }
    | _ => none
  | .join =>
    match p.place, p.bridge.server.serving with
    | .joining cause, .returned => some { p with place := .releasing cause }
    -- The error of `serve` is returned at once; the registration is left to the scanner.
    | .joining _, .failed => some { p with place := .exited (.error .milter) }
    | _, _ => none
  | .deregister =>
    match p.place with
    | .releasing cause => do
      let bridge ← p.bridge.next config.toBridgeConfig .deregister
      return { p with place := .closing cause, bridge }
    | _ => none
  | .exit =>
    match p.place with
    | .closing cause => some { p with place := .exited cause.result }
    | _ => none

/-- The stats as the HTTP server shows them.  The gauge of the listener is set when `serve`
    begins. -/
def stats (p : Program Url) : Stats :=
  if p.begun then p.bridge.server.stats else { p.bridge.server.stats with listener := 0 }

/-- What `/readyz` answers. -/
def ready (p : Program Url) : Bool := p.stats.ready

/-- A run of the program that has booted. -/
def Reaches (events : List ProgramEvent) (p : Program Url) : Prop :=
  ∃ sockets files transport start startupWait fuel p₀ log,
    ∃ world : ScannerClient.Startup Url → ScannerClient.Attempt,
    (∀ s, s.resumed ≤ (world s).now) ∧
    boot config sockets files transport start startupWait world fuel = some (.ok p₀, log) ∧
    Machine.exec (next config) p₀ events = some p

/-- What a step can do. -/
inductive Moves (p : Program Url) : ProgramEvent → Program Url → Prop
  | bridge {event : BridgeEvent} {b : Bridge Url} (hplace : ∀ result, p.place ≠ .exited result)
    (hevent : event.ofMain = false) (hbegun : p.begun = true)
    (hbridge : p.bridge.next config.toBridgeConfig event = some b) :
    Moves p (.bridge event) { p with bridge := b }
  | begin (hplace : ∀ result, p.place ≠ .exited result) (hbegun : p.begun = false) :
    Moves p .begin { p with begun := true }
  | stop {cause : Cause} {b : Bridge Url} (hplace : p.place = .waiting)
    (hcause : cause = .milter → p.bridge.finished = true)
    (hbridge : p.bridge.next config.toBridgeConfig (.server .unready 0 []) = some b) :
    Moves p (.stop cause) { p with place := .clearing cause, bridge := b }
  | cancel {cause : Cause} {b : Bridge Url} (hplace : p.place = .clearing cause)
    (hbridge : p.bridge.next config.toBridgeConfig (.server .cancel 0 []) = some b) :
    Moves p .cancel { p with place := .stopping cause, bridge := b }
  | finished {cause : Cause} (hplace : p.place = .stopping cause)
    (hfinished : p.bridge.finished = true) : Moves p .look { p with place := .releasing cause }
  | awaits {cause : Cause} (hplace : p.place = .stopping cause)
    (hfinished : p.bridge.finished = false) : Moves p .look { p with place := .joining cause }
  | joins {cause : Cause} (hplace : p.place = .joining cause)
    (hserving : p.bridge.server.serving = .returned) :
    Moves p .join { p with place := .releasing cause }
  | fails {cause : Cause} (hplace : p.place = .joining cause)
    (hserving : p.bridge.server.serving = .failed) :
    Moves p .join { p with place := .exited (.error .milter) }
  | deregister {cause : Cause} {b : Bridge Url} (hplace : p.place = .releasing cause)
    (hbridge : p.bridge.next config.toBridgeConfig .deregister = some b) :
    Moves p .deregister { p with place := .closing cause, bridge := b }
  | exit {cause : Cause} (hplace : p.place = .closing cause) :
    Moves p .exit { p with place := .exited cause.result }

variable {config} {p q : Program Url}

/-- A step is one of these. -/
theorem next_moves {event : ProgramEvent} (h : next config p event = some q) :
    Moves config p event q := by
  cases event with
  | bridge event =>
    simp only [next] at h
    split at h
    next => cases h
    next hplace =>
      split at h
      next => cases h
      next hevent =>
        obtain ⟨b, hbridge, h⟩ := Option.bind_eq_some_iff.mp h
        obtain rfl := Option.some.inj h
        obtain ⟨hmain, hbegun⟩ : event.ofMain = false ∧ p.begun = true := by
          simpa using hevent
        exact .bridge hplace hmain hbegun hbridge
  | begin =>
    simp only [next] at h
    split at h
    next => cases h
    next hplace =>
      split at h
      next => cases h
      next hbegun =>
        obtain rfl := Option.some.inj h
        exact .begin hplace (by simpa using hbegun)
  | stop cause =>
    simp only [next] at h
    split at h
    next hplace =>
      split at h
      next => cases h
      next hcause =>
        obtain ⟨b, hbridge, h⟩ := Option.bind_eq_some_iff.mp h
        obtain rfl := Option.some.inj h
        exact .stop hplace (fun hmilter => by simpa [hmilter] using hcause) hbridge
    next => cases h
  | cancel =>
    simp only [next] at h
    split at h
    next cause hplace =>
      obtain ⟨b, hbridge, h⟩ := Option.bind_eq_some_iff.mp h
      obtain rfl := Option.some.inj h
      exact .cancel hplace hbridge
    next => cases h
  | look =>
    simp only [next] at h
    split at h
    next cause hplace =>
      obtain rfl := Option.some.inj h
      cases hfinished : p.bridge.finished with
      | true => exact .finished hplace hfinished
      | false => exact .awaits hplace hfinished
    next => cases h
  | join =>
    simp only [next] at h
    split at h
    next cause hplace hserving =>
      obtain rfl := Option.some.inj h
      exact .joins hplace hserving
    next hplace hserving =>
      obtain rfl := Option.some.inj h
      exact .fails hplace hserving
    next => cases h
  | deregister =>
    simp only [next] at h
    split at h
    next cause hplace =>
      obtain ⟨b, hbridge, h⟩ := Option.bind_eq_some_iff.mp h
      obtain rfl := Option.some.inj h
      exact .deregister hplace hbridge
    next => cases h
  | exit =>
    simp only [next] at h
    split at h
    next cause hplace =>
      obtain rfl := Option.some.inj h
      exact .exit hplace
    next => cases h

end Program

end MtaHooks
