import MtaHooks.Hooks.Steps
import MtaHooks.Server.Interleaving

namespace MtaHooks

open Hooks

/-!
# The bridge

The whole program between the MTA and the scanner: the server with its connections, and the
client that is its policy.  A connection that raises a subscribed callback starts an invocation
of the client and holds its future; the invocation that finishes hands its result to the
connection in the same step, and a connection that is no longer waiting drops it.  While a
connection writes a keepalive it does not poll the future: its invocation stands still, and so
do the deadlines of both sides.  The client is deregistered once `serve` is over.

The keepalive of a connection alone is one event, `.tick`.  Here it starts with the event
`.notify`, and `.tick` is the end of its write, with which it is counted.  An invocation that
stands still keeps what it holds, the lock of the registration too: another one that needs the
lock waits for it, and can end with its own deadline.

* `Server.awaited` — the callback a connection waits for;
* `Bridge.polled`, `Bridge.permits` — what a keepalive holds up;
* `Bridge.next` — one event of the environment;
* `Bridge.next_moves` — what an event can do;
* `Bridge.Reaches` — a run of the bridge, from the startup of the client on.
-/

/-- The callback that is being evaluated, and the session it is about. -/
def Driver.awaits (d : Driver) : Option (Stage × Session) :=
  match d.phase with
  | .evaluating stage _ _ => some (stage, d.session)
  | _ => none

/-- The callback a connection waits for. -/
def Server.awaited (s : Server) (n : ℕ) : Option (Stage × Session) :=
  (s.live n).bind fun c => c.driver.awaits

/-- The connection that an event is about. -/
def ServerEvent.target : ServerEvent → Option ℕ
  | .connection n _ | .crash n | .abort n => some n
  | _ => none

/-- The event is one of the policy. -/
def ServerEvent.isPolicy : ServerEvent → Bool
  | .connection _ (.evaluated _) | .crash _ => true
  | _ => false

/-- What a connection meets when its policy is done. -/
def ServerEvent.ofPolicy (n : ℕ) : Result Decision → ServerEvent
  | .ok decision => .connection n (.evaluated (.ok decision))
  | .error e => if e.isPanic then .crash n else .connection n (.evaluated (.error e))

namespace Hooks.ScannerClient

/-- The macros behind the projected properties. -/
def projectionMacros : MacroLists :=
  [(.connect, [ascii "j", ascii "{daemon_name}", ascii "{daemon_addr}", ascii "{daemon_port}",
      ascii "{client_addr}", ascii "{client_port}", ascii "{client_name}", ascii "{client_ptr}",
      ascii "{client_connections}"]),
    (.helo, [ascii "{tls_version}", ascii "{cipher}", ascii "{cipher_bits}",
      ascii "{cert_subject}", ascii "{cert_issuer}"]),
    (.mail, [ascii "i", ascii "{auth_type}", ascii "{auth_authen}", ascii "{auth_author}"]),
    (.recipient, [ascii "i", ascii "{rcpt_addr}"]),
    (.data, [ascii "i"]),
    (.endHeaders, [ascii "i"]),
    (.endMessage, [ascii "i"])]

/-- The client as the policy of a server. -/
def policy {Url Origin : Type} (c : ScannerClient Url Origin) (requestMacros : Bool) : Policy where
  stages := c.stages
  actions := addHeaders ||| changeBody ||| changeHeaders ||| quarantine ||| changeFrom |||
    addRecipient ||| addRecipientPar ||| deleteRecipient
  macros := if requestMacros then projectionMacros else []

end Hooks.ScannerClient

open ScannerClient (Life Task)

/-- An invocation with the connection that waits for it. -/
structure Invoked extends Task where
  connection : ℕ

/-- The settings of the bridge. -/
structure BridgeConfig (Url Origin : Type) where
  server : ServerConfig
  client : ScannerClient Url Origin
  requestMacros : Bool := true

/-- The state of the bridge: the server, the client, the invocations so far, the oldest first,
    the future that each connection holds, and the connections that write a keepalive. -/
structure Bridge (Url : Type) where
  server : Server
  life : Life Url
  calls : List Invoked
  future : ℕ → Option ℕ
  notifying : ℕ → Bool

/-- The events of the environment. -/
inductive BridgeEvent
  /-- An event of the server; an invocation it starts gets the instant and the id. -/
  | server (event : ServerEvent) (now : ℕ) (requestId : Str)
  /-- The progress ticker of a connection fires, and its keepalive is written from now on. -/
  | notify (n : ℕ)
  /-- A step of an invocation. -/
  | client (action : ScannerClient.Action)
  /-- The deadline of an invocation passes. -/
  | expire (i : ℕ)
  | deregister

namespace Bridge

variable {Url Origin : Type} (config : BridgeConfig Url Origin)

/-- The policy of the server. -/
def policy : Policy := config.client.policy config.requestMacros

/-- What the invocations are about; the numbers of no invocation stand for anything. -/
def taskOf (calls : List Invoked) (i : ℕ) : Task :=
  (calls[i]?.map Invoked.toTask).getD ⟨.new {} [] 0, .connect, []⟩

/-- An invocation can go on: its connection polls it, and does not write a keepalive. -/
def polled (b : Bridge Url) (i : ℕ) : Bool :=
  b.calls[i]?.all fun call => !b.notifying call.connection

/-- An event of the server can come: a keepalive ends after it has started, and the deadline of a
    callback is looked at between keepalives. -/
def permits (b : Bridge Url) : ServerEvent → Bool
  | .connection n (.tick _) => b.notifying n
  | .connection n .deadline => !b.notifying n
  | _ => true

/-- The keepalives that are still written after an event; one of its own connection is over. -/
def quieted (b : Bridge Url) (event : ServerEvent) : ℕ → Bool :=
  match event.target with
  | none => b.notifying
  | some n => Function.update b.notifying n false

/-- A step of the server. -/
def serve (b : Bridge Url) (event : ServerEvent) : Option Server :=
  b.server.next config.server (policy config) event

/-- An invocation is over; its result goes to the connection that waits for it. -/
def deliver (b : Bridge Url) (life : Life Url) (i : ℕ) (result : Result Decision) :
    Option (Bridge Url) := do
  let call ← b.calls[i]?
  let server ← b.serve config (.ofPolicy call.connection result)
  return { b with server, life, future := Function.update b.future call.connection none }

/-- A result is delivered to the connection of the invocation, which takes it as the outcome of its
    policy. -/
theorem deliver_some {config : BridgeConfig Url Origin} {b t : Bridge Url} {life : Life Url}
    {i : ℕ} {result : Result Decision} (h : b.deliver config life i result = some t) :
    ∃ call server, b.calls[i]? = some call ∧
      b.serve config (.ofPolicy call.connection result) = some server ∧
      t = { b with server, life, future := Function.update b.future call.connection none } := by
  obtain ⟨call, hcall, h⟩ := Option.bind_eq_some_iff.mp h
  obtain ⟨server, hserver, h⟩ := Option.bind_eq_some_iff.mp h
  exact ⟨call, server, hcall, hserver, (Option.some.inj h).symm⟩

variable [DecidableEq Origin]

/-- A step of the client. -/
def work (b : Bridge Url) (calls : List Invoked) (action : ScannerClient.Action) :
    Option (Life Url) :=
  config.client.next (taskOf calls) b.life action

/-- A connection evaluates its policy. -/
def begin (b : Bridge Url) (server : Server) (call : Invoked) (now : ℕ) : Option (Bridge Url) := do
  let calls := b.calls ++ [call]
  let life ← b.work config calls (.evaluate b.calls.length now)
  return { b with
    server, life, calls
    future := Function.update b.future call.connection b.calls.length }

/-- A connection has another outcome, or is gone. -/
def cancel (b : Bridge Url) (server : Server) (n : ℕ) : Option (Bridge Url) := do
  let i ← b.future n
  let life ← b.work config b.calls (.drop i)
  return { b with server, life, future := Function.update b.future n none }

/-- One event of the environment. -/
def next (b : Bridge Url) : BridgeEvent → Option (Bridge Url)
  | .server event now requestId =>
    if event.isPolicy || !b.permits event then none
    else do
      let server ← b.serve config event
      let quiet := { b with notifying := b.quieted event }
      match event.target with
      | none => return { quiet with server }
      | some n =>
        match b.server.awaited n, server.awaited n with
        | none, some (stage, session) =>
          quiet.begin config server { connection := n, session, stage, requestId } now
        | some _, none => quiet.cancel config server n
        | _, _ => return { quiet with server }
  | .notify n =>
    if config.server.progressInterval && (b.server.awaited n).isSome && !b.notifying n then
      some { b with notifying := Function.update b.notifying n true }
    else none
  | .client action => do
    let i ← action.invoking
    if b.polled i then
      let life ← b.work config b.calls action
      match life.invocation i with
      | .finished result => b.deliver config life i result
      | _ => return { b with life }
    else none
  | .expire i =>
    if b.polled i then do
      let life ← b.work config b.calls (.drop i)
      b.deliver config life i (.error .timeout)
    else none
  -- The accept loop is over, with its connections drained or aborted.
  | .deregister =>
    if b.server.serving = .returned ∨ b.server.serving = .failed then do
      let life ← b.work config b.calls .deregister
      return { b with life }
    else none

/-- What an event can do. -/
inductive Moves (b : Bridge Url) : BridgeEvent → Bridge Url → Prop
  | serves {event : ServerEvent} {server : Server} (hpolicy : event.isPolicy = false)
    (hpermits : b.permits event = true) (hserver : b.serve config event = some server)
    (hsame : ∀ n, event.target = some n →
      (server.awaited n).isSome = (b.server.awaited n).isSome)
    (now : ℕ) (requestId : Str) :
    Moves b (.server event now requestId) { b with server, notifying := b.quieted event }
  | begins {event : ServerEvent} {server : Server} {life : Life Url} {n now : ℕ} {requestId : Str}
    {stage : Stage} {session : Session} (hpolicy : event.isPolicy = false)
    (hpermits : b.permits event = true) (hserver : b.serve config event = some server)
    (htarget : event.target = some n) (hbefore : b.server.awaited n = none)
    (hafter : server.awaited n = some (stage, session))
    (hlife : b.work config (b.calls ++ [{ connection := n, session, stage, requestId }])
      (.evaluate b.calls.length now) = some life) :
    Moves b (.server event now requestId)
      { server, life,
        calls := b.calls ++ [{ connection := n, session, stage, requestId }]
        future := Function.update b.future n b.calls.length
        notifying := b.quieted event }
  | cancels {event : ServerEvent} {server : Server} {life : Life Url} {n i : ℕ}
    (hpolicy : event.isPolicy = false) (hpermits : b.permits event = true)
    (hserver : b.serve config event = some server)
    (htarget : event.target = some n) (hafter : server.awaited n = none)
    (hfuture : b.future n = some i) (hlife : b.work config b.calls (.drop i) = some life)
    (now : ℕ) (requestId : Str) :
    Moves b (.server event now requestId)
      { b with
        server, life
        future := Function.update b.future n none
        notifying := b.quieted event }
  | notifies {n : ℕ} (hinterval : config.server.progressInterval = true)
    (hawaited : (b.server.awaited n).isSome = true) (hquiet : b.notifying n = false) :
    Moves b (.notify n) { b with notifying := Function.update b.notifying n true }
  | works {action : ScannerClient.Action} {life : Life Url} {i : ℕ}
    (hi : action.invoking = some i) (hpolled : b.polled i = true)
    (hlife : b.work config b.calls action = some life)
    (hgoing : ∀ result, life.invocation i ≠ .finished result) :
    Moves b (.client action) { b with life }
  | finishes {action : ScannerClient.Action} {server : Server} {life : Life Url} {i : ℕ}
    {result : Result Decision} {call : Invoked} (hi : action.invoking = some i)
    (hpolled : b.polled i = true) (hlife : b.work config b.calls action = some life)
    (hfinished : life.invocation i = .finished result) (hcall : b.calls[i]? = some call)
    (hserver : b.serve config (.ofPolicy call.connection result) = some server) :
    Moves b (.client action)
      { b with server, life, future := Function.update b.future call.connection none }
  | expires {server : Server} {life : Life Url} {i : ℕ} {call : Invoked}
    (hpolled : b.polled i = true)
    (hlife : b.work config b.calls (.drop i) = some life) (hcall : b.calls[i]? = some call)
    (hserver : b.serve config (.ofPolicy call.connection (.error .timeout)) = some server) :
    Moves b (.expire i)
      { b with server, life, future := Function.update b.future call.connection none }
  | deregisters {life : Life Url}
    (hserving : b.server.serving = .returned ∨ b.server.serving = .failed)
    (hlife : b.work config b.calls .deregister = some life) :
    Moves b .deregister { b with life }

/-- An event does one of these. -/
theorem next_moves {config : BridgeConfig Url Origin} {b t : Bridge Url} {event : BridgeEvent}
    (h : b.next config event = some t) : Moves config b event t := by
  cases event with
  | server event now requestId =>
    simp only [next] at h
    split at h
    next => cases h
    next hguard =>
      obtain ⟨hpolicy, hpermits⟩ : event.isPolicy = false ∧ b.permits event = true := by
        simpa using hguard
      obtain ⟨server, hserver, h⟩ := Option.bind_eq_some_iff.mp h
      split at h
      next hnone =>
        obtain rfl := Option.some.inj h
        refine .serves hpolicy hpermits hserver (fun n hn => ?_) now requestId
        rw [hnone] at hn
        cases hn
      next n htarget =>
        split at h
        next stage session hbefore hafter =>
          obtain ⟨life, hlife, h⟩ := Option.bind_eq_some_iff.mp h
          obtain rfl := Option.some.inj h
          exact .begins hpolicy hpermits hserver htarget hbefore hafter hlife
        next hbefore hafter =>
          obtain ⟨i, hfuture, h⟩ := Option.bind_eq_some_iff.mp h
          obtain ⟨life, hlife, h⟩ := Option.bind_eq_some_iff.mp h
          obtain rfl := Option.some.inj h
          exact .cancels hpolicy hpermits hserver htarget hafter hfuture hlife now requestId
        next hopen hclose =>
          obtain rfl := Option.some.inj h
          refine .serves hpolicy hpermits hserver (fun m hm => ?_) now requestId
          obtain rfl := Option.some.inj (hm.symm.trans htarget)
          cases hbefore : b.server.awaited m with
          | none =>
            cases hafter : server.awaited m with
            | none => rfl
            | some a => exact absurd hafter (hopen a.1 a.2 hbefore)
          | some a =>
            cases hafter : server.awaited m with
            | none => exact absurd hafter (hclose a hbefore)
            | some a' => rfl
  | notify n =>
    simp only [next] at h
    split at h
    next hguard =>
      obtain rfl := Option.some.inj h
      obtain ⟨⟨hinterval, hawaited⟩, hquiet⟩ :
          (config.server.progressInterval = true ∧ (b.server.awaited n).isSome = true) ∧
            b.notifying n = false := by
        simpa using hguard
      exact .notifies hinterval hawaited hquiet
    next => cases h
  | client action =>
    obtain ⟨i, hi, h⟩ := Option.bind_eq_some_iff.mp h
    split at h
    next hpolled =>
      obtain ⟨life, hlife, h⟩ := Option.bind_eq_some_iff.mp h
      split at h
      next result hfinished =>
        obtain ⟨call, server, hcall, hserver, rfl⟩ := deliver_some h
        exact .finishes hi hpolled hlife hfinished hcall hserver
      next hgoing =>
        obtain rfl := Option.some.inj h
        exact .works hi hpolled hlife hgoing
    next => cases h
  | expire i =>
    simp only [next] at h
    split at h
    next hpolled =>
      obtain ⟨life, hlife, h⟩ := Option.bind_eq_some_iff.mp h
      obtain ⟨call, server, hcall, hserver, rfl⟩ := deliver_some h
      exact .expires hpolled hlife hcall hserver
    next => cases h
  | deregister =>
    simp only [next] at h
    split at h
    next hserving =>
      obtain ⟨life, hlife, h⟩ := Option.bind_eq_some_iff.mp h
      obtain rfl := Option.some.inj h
      exact .deregisters hserving hlife
    next => cases h

/-- The bridge after startup. -/
def started (server : Server) (log : List (Entry Url)) (reg : ScannerClient.Registration Url) :
    Bridge Url where
  server := server
  life := .started log reg
  calls := []
  future := fun _ => none
  notifying := fun _ => false

/-- A run of the bridge: the client starts, then the server, then they run side by side. -/
def Reaches (events : List BridgeEvent) (b : Bridge Url) : Prop :=
  ∃ transport start startupWait fuel e reg ready server,
    ∃ world : ScannerClient.Startup Url → ScannerClient.Attempt,
    (∀ s, s.resumed ≤ (world s).now) ∧
    config.client.withOptions transport start startupWait world fuel = some e ∧
    e.result = .ok reg ∧ Server.start config.server ready = .ok server ∧
    Machine.exec (next config) (started server e.log reg) events = some b

end Bridge

end MtaHooks
