import MtaHooks.Bridge.Delivery
import MtaHooks.Server.Drain

namespace MtaHooks

open Hooks
open ScannerClient (Life Task Current)

/-!
# The end of the bridge

Once `serve` is over its connections are drained or aborted, and with them the invocations that
they polled: what is left of the client is its registration.  `Life.farewell` is the log after
`deregister`, with the DELETE where there is something to delete.

* `Bridge.closed` — once `serve` has returned no invocation is under way, and the only request
  that is still sent is the end of the registration;
* `Bridge.closes` — from every state the drain brings the bridge to its end, where the
  registration is ended.
-/

/-! ### The end of a registration -/

namespace Hooks.ScannerClient

variable {Url Origin : Type} {c : ScannerClient Url Origin} {tasks : ℕ → Task} {s t : Life Url}

/-- What is sent to end the cached registration, after what is logged. -/
def Life.farewell (c : ScannerClient Url Origin) (life : Life Url) : List (Entry Url) :=
  match life.registration with
  | none => life.log
  | some reg =>
    match reg.deregistration with
    | none => life.log
    | some url =>
      if c.deregister then .sent (c.deregisterRequest reg.toRegistration url) :: life.log
      else life.log

/-- What is sent at the end depends on the log and on the cached registration only. -/
theorem farewell_congr (hlog : t.log = s.log) (hreg : t.registration = s.registration) :
    t.farewell c = s.farewell c := by
  unfold Life.farewell
  rw [hlog, hreg]

variable [DecidableEq Origin]

/-- `deregister` ends the cached registration. -/
theorem next_deregister (h : c.next tasks s .deregister = some t) :
    t.registration = none ∧ t.log = s.farewell c := by
  by_cases hlock : s.lock = none
  · cases hreg : s.registration with
    | none =>
      obtain rfl : { s with registration := none } = t := by simpa [next, hlock, hreg] using h
      exact ⟨rfl, by simp [Life.farewell, hreg]⟩
    | some reg =>
      cases hurl : reg.deregistration with
      | none =>
        obtain rfl : { s with registration := none } = t := by
          simpa [next, hlock, hreg, hurl] using h
        exact ⟨rfl, by simp [Life.farewell, hreg, hurl]⟩
      | some url =>
        by_cases henabled : c.deregister = true
        · obtain rfl : ({ s with registration := none } : Life Url).send
              (c.deregisterRequest reg.toRegistration url) = t := by
            simpa [next, hlock, hreg, hurl, henabled] using h
          exact ⟨rfl, by simp [Life.farewell, Life.send, hreg, hurl, henabled]⟩
        · obtain rfl : { s with registration := none } = t := by
            simpa [next, hlock, hreg, hurl, henabled] using h
          exact ⟨rfl, by simp [Life.farewell, hreg, hurl, henabled]⟩
  · simp [next, hlock] at h

end Hooks.ScannerClient

/-! ### A server at rest -/

namespace Server

variable {config : ServerConfig} {policy : Policy} {s t : Server}

/-- A server that has returned does nothing more. -/
theorem moves_returned {event : ServerEvent} (h : Moves config policy s event t)
    (hserving : s.serving = .returned) (hidle : s.idle = true) :
    t.serving = .returned ∧ t.tasks = s.tasks := by
  have hlive : ∀ {n c}, s.live n ≠ some c := by
    intro n c hn
    rw [not_idle_of_live hn] at hidle
    cases hidle
  have helse : ∀ {stage}, s.serving = stage → stage ≠ .returned → False :=
    fun hstage hne => hne (hstage.symm.trans hserving)
  cases h with
  | wait elapsed => exact ⟨hserving, rfl⟩
  | cancel => exact ⟨hserving, rfl⟩
  | unready => exact ⟨hserving, rfl⟩
  | overload hstage hpermits => exact (helse hstage (by decide)).elim
  | take hstage hpermits => exact (helse hstage (by decide)).elim
  | fail hstage =>
    rcases hstage with hstage | hstage | hstage
    · exact (helse hstage (by decide)).elim
    · exact (helse hstage (by decide)).elim
    · exact (helse hstage (by decide)).elim
  | goes hn hpossible hdriver hcount hphase => exact absurd hn hlive
  | returns hn hpossible hdriver hcount hphase hreturned => exact absurd hn hlive
  | crash hn hevaluating hdropped => exact absurd hn hlive
  | abort hn hstage hdropped => exact absurd hn hlive
  | leave hstage hstop => exact (helse hstage (by decide)).elim
  | drained hstage hrunning => exact (helse hstage (by decide)).elim
  | deadline hstage hrunning => exact (helse hstage (by decide)).elim
  | joined hstage hrunning => exact (helse hstage (by decide)).elim

/-- No connection of an idle server waits. -/
theorem awaited_of_idle (hidle : s.idle = true) (n : ℕ) : s.awaited n = none := by
  by_contra hawaited
  obtain ⟨a, ha⟩ := Option.ne_none_iff_exists'.mp hawaited
  obtain ⟨c, hlive, -⟩ := awaited_some.mp ha
  rw [not_idle_of_live hlive] at hidle
  cases hidle

end Server

/-- An event of the drain, as one of the bridge. -/
def BridgeEvent.ofDrain (event : ServerEvent) : BridgeEvent := .server event 0 []

namespace Bridge

variable {Url Origin : Type} {config : BridgeConfig Url Origin} {b t : Bridge Url}

/-- Where no connection waits no invocation is under way. -/
theorem Linked.rest (h : b.Linked) (hidle : b.server.idle = true) (i : ℕ) :
    (b.life.invocation i).isActive = false := by
  by_contra hactive
  obtain ⟨call, hcall, hfuture⟩ := h.active i (by simpa using hactive)
  obtain ⟨call', -, -, hawaited, -⟩ := h.waits _ i hfuture
  rw [Server.awaited_of_idle hidle] at hawaited
  cases hawaited

/-- What has been sent since `serve` returned. -/
structure Closed (c : ScannerClient Url Origin) (life : Life Url) (b : Bridge Url) : Prop where
  linked : b.Linked
  serving : b.server.serving = .returned
  idle : b.server.idle = true
  log : b.life.registration = life.registration ∧ b.life.log = life.log ∨
    b.life.registration = none ∧ (b.life.log = life.log ∨ ∃ reg url,
      life.registration = some reg ∧ reg.deregistration = some url ∧
      b.life.log = .sent (c.deregisterRequest reg.toRegistration url) :: life.log)

variable [DecidableEq Origin]

/-- **After the end** only a deregistration is sent, and only once. -/
theorem Closed.moves {life : Life Url} {event : BridgeEvent} (h : Closed config.client life b)
    (hmoves : Moves config b event t) : Closed config.client life t := by
  have hlinked := h.linked.moves hmoves
  have hrest := h.linked.rest h.idle
  have hdrop : ∀ {i life'}, b.work config b.calls (.drop i) = some life' → False := by
    intro i life' hlife
    cases ScannerClient.next_moves hlife with
    | drops hactive =>
      rw [hrest i] at hactive
      cases hactive
  have hworks : ∀ {action i life'}, action.invoking = some i →
      b.work config b.calls action = some life' → False := by
    intro action i life' hi hlife
    have hactive := ((ScannerClient.next_moves hlife).works hi).1
    rw [hrest i] at hactive
    cases hactive
  have hserve : ∀ {event server}, b.serve config event = some server →
      server.serving = .returned ∧ server.idle = true := by
    intro event server hserver
    obtain ⟨hserving, htasks⟩ :=
      Server.moves_returned (Server.next_moves hserver) h.serving h.idle
    refine ⟨hserving, ?_⟩
    rw [Server.idle, htasks]
    exact h.idle
  cases hmoves with
  | serves hpolicy hpermits hserver hsame now requestId =>
    obtain ⟨hserving, hidle⟩ := hserve hserver
    exact ⟨hlinked, hserving, hidle, h.log⟩
  | begins hpolicy hpermits hserver htarget hbefore hafter hlife =>
    rw [Server.awaited_of_idle (hserve hserver).2] at hafter
    cases hafter
  | cancels hpolicy hpermits hserver htarget hafter hfuture hlife now requestId =>
    exact (hdrop hlife).elim
  | notifies hinterval hawaited hquiet => exact ⟨hlinked, h.serving, h.idle, h.log⟩
  | works hi hpolled hlife hgoing => exact (hworks hi hlife).elim
  | finishes hi hpolled hlife hfinished hcall hserver => exact (hworks hi hlife).elim
  | expires hpolled hlife hcall hserver => exact (hdrop hlife).elim
  | deregisters hserving hlife =>
    refine ⟨hlinked, h.serving, h.idle, .inr ?_⟩
    cases ScannerClient.next_moves hlife with
    | releases hlock =>
      refine ⟨rfl, ?_⟩
      rcases h.log with ⟨-, hlog⟩ | ⟨-, hlog⟩
      · exact .inl hlog
      · exact hlog
    | @deregisters reg url hlock hreg hurl henabled =>
      refine ⟨rfl, .inr ?_⟩
      rcases h.log with ⟨hsame, hlog⟩ | ⟨hnone, -⟩
      · exact ⟨reg, url, hsame.symm.trans hreg, hurl, congrArg (List.cons _) hlog⟩
      · rw [hnone] at hreg
        cases hreg

/-- The client can be deregistered once `serve` is over and no invocation holds the lock. -/
theorem deregisters {actions : List ScannerClient.Action} {tasks : ℕ → ScannerClient.Task}
    (h : ScannerClient.Reaches config.client tasks actions b.life)
    (hserving : b.server.serving = .returned ∨ b.server.serving = .failed)
    (hrest : ∀ i, (b.life.invocation i).isActive = false) :
    ∃ t, b.next config .deregister = some t ∧ t.life.registration = none ∧
      t.life.log = b.life.farewell config.client ∧ t.server = b.server := by
  have hlock : b.life.lock = none := by
    by_contra hheld
    obtain ⟨i, hi⟩ := Option.ne_none_iff_exists'.mp hheld
    obtain ⟨x, hx⟩ := h.locked i hi
    have hactive := hrest i
    rw [hx] at hactive
    cases hactive
  obtain ⟨life, hlife⟩ : ∃ life, b.work config b.calls .deregister = some life := by
    simp only [work, ScannerClient.next, hlock, if_true]
    split
    next => exact ⟨_, rfl⟩
    next =>
      split
      next => exact ⟨_, rfl⟩
      next => split <;> exact ⟨_, rfl⟩
  obtain ⟨hnone, hlog⟩ := ScannerClient.next_deregister hlife
  refine ⟨{ b with life }, ?_, hnone, hlog, rfl⟩
  simp only [next, hserving, if_true, hlife, Option.bind_eq_bind, Option.bind_some]
  rfl

/-- What a connection starts or drops sends nothing. -/
theorem Moves.sends_nothing {event : ServerEvent} {now : ℕ} {requestId : Str}
    (h : Moves config b (.server event now requestId) t) :
    t.life.log = b.life.log ∧ t.life.registration = b.life.registration := by
  cases h with
  | serves hpolicy hpermits hserver hsame => exact ⟨rfl, rfl⟩
  | begins hpolicy hpermits hserver htarget hbefore hafter hlife =>
    cases ScannerClient.next_moves hlife with
    | begins hphase now => exact ⟨rfl, rfl⟩
  | cancels hpolicy hpermits hserver htarget hafter hfuture hlife =>
    cases ScannerClient.next_moves hlife with
    | drops hactive => exact ⟨rfl, rfl⟩

/-- A run of the drain is one of the bridge. -/
theorem Reaches.drains {events : List BridgeEvent} (h : Reaches config events b)
    {drain : List ServerEvent} {server : Server}
    (hdrain : ∀ event ∈ drain, Server.isDrain event = true)
    (hrun : Machine.exec (Server.next config.server (policy config)) b.server drain = some server) :
    ∃ t, Reaches config (events ++ drain.map .ofDrain) t ∧
      Machine.exec (next config) b (drain.map .ofDrain) = some t ∧ t.server = server ∧
      t.life.log = b.life.log ∧ t.life.registration = b.life.registration := by
  induction drain generalizing events b with
  | nil => exact ⟨b, by rwa [List.map_nil, List.append_nil], rfl, Option.some.inj hrun, rfl, rfl⟩
  | cons event drain ih =>
    obtain ⟨server', hserve, hrest⟩ := Machine.exec_cons.mp hrun
    obtain ⟨hfirst, hdrain⟩ := List.forall_mem_cons.mp hdrain
    obtain ⟨hpolicy, hpermits⟩ : event.isPolicy = false ∧ b.permits event = true := by
      cases event with
      | crash n => cases hfirst
      | connection n event => cases hfirst
      | _ => exact ⟨rfl, rfl⟩
    obtain ⟨u, hnext, rfl⟩ := h.sides.1.serves hpolicy hpermits hserve 0 []
    obtain ⟨hlog, hreg⟩ := (next_moves hnext).sends_nothing
    obtain ⟨t, hreaches, hlater, ht, hlog', hreg'⟩ := ih (h.snoc hnext) hdrain hrest
    refine ⟨t, ?_, Machine.exec_cons.mpr ⟨u, hnext, hlater⟩, ht, hlog'.trans hlog,
      hreg'.trans hreg⟩
    rwa [List.append_assoc] at hreaches

/-! ### The main results -/

/-- **Nothing follows the end.**  In every run in which `serve` has returned: no invocation is
    under way, and the client can be deregistered.  However the run goes on from there, nothing
    is sent any more, or the end of the current registration, once. -/
theorem closed {config : BridgeConfig Url Origin} {events : List BridgeEvent} {b : Bridge Url}
    (h : Reaches config events b) (hreturned : b.server.serving = .returned) :
    (∀ i, (b.life.invocation i).isActive = false) ∧
    (∃ t, b.next config .deregister = some t ∧ t.life.registration = none) ∧
    ∀ later t, Machine.exec (next config) b later = some t → t.life.log = b.life.log ∨
      ∃ reg url, Current b.life.log reg ∧ reg.deregistration = some url ∧
        t.life.log = .sent (config.client.deregisterRequest reg url) :: b.life.log := by
  obtain ⟨hlinked, ⟨ready, past, hserver⟩, actions, hclient⟩ := h.sides
  have hidle := hserver.staged.idle hreturned
  have hrest := hlinked.rest hidle
  obtain ⟨u, hnext, hnone, -⟩ := deregisters hclient (.inl hreturned) hrest
  refine ⟨hrest, ⟨u, hnext, hnone⟩, fun later t hrun => ?_⟩
  have hstart : Closed config.client b.life b := ⟨hlinked, hreturned, hidle, .inl ⟨rfl, rfl⟩⟩
  have hend := Machine.exec_invariant_on hrun hstart fun _ _ _ _ hstep hclosed =>
    Closed.moves hclosed (next_moves hstep)
  rcases hend.log with ⟨-, hlog⟩ | ⟨-, hlog | ⟨reg, url, hreg, hurl, hlog⟩⟩
  · exact .inl hlog
  · exact .inl hlog
  · exact .inr ⟨reg.toRegistration, url, hclient.provenance.1.cached reg hreg, hurl, hlog⟩

/-- The message is answered, and the server is stopped and drains. -/
def sampleDrained : List BridgeEvent :=
  sampleAsked ++ .client sampleReply :: [.connection 0 (.write .done), .cancel, .leave,
    .connection 0 .stop, .drained].map sampleServes

theorem sampleDrained_returns :
    (sampleBridge sampleDrained).map (·.server.serving) = some .returned := by
  decide +kernel

/-- After a graceful drain the client can be deregistered. -/
theorem closed_at_drain : ∃ b t, Reaches sampleConfig sampleDrained b ∧
    b.next sampleConfig .deregister = some t ∧ t.life.registration = none := by
  obtain ⟨b, hb, hreturned⟩ := Option.map_eq_some_iff.mp sampleDrained_returns
  have hreaches := sampleBridge_reaches hb
  obtain ⟨-, ⟨t, hnext, hnone⟩, -⟩ := closed hreaches hreturned
  exact ⟨b, t, hreaches, hnext, hnone⟩

/-- **The bridge can always be closed.**  From every state of every run, unless the accept loop
    has failed, the stop token, events of the drain and the deregistration bring the bridge to its
    end, whatever the connections, the invocations and the scanner are doing, and without anything
    that comes from them: `serve` has returned, and the registration is released.  Where there is
    one, and the scanner and the settings let it, it has been ended by a request; nothing else has
    been sent. -/
theorem closes {config : BridgeConfig Url Origin} {events : List BridgeEvent} {b : Bridge Url}
    (h : Reaches config events b) (hserving : b.server.serving ≠ .failed) :
    ∃ (drain : List ServerEvent) (t : Bridge Url),
      (∀ event ∈ drain, Server.isDrain event = true) ∧
      Machine.exec (next config) b (.ofDrain .cancel :: (drain.map .ofDrain ++ [.deregister])) =
        some t ∧
      t.server.serving = .returned ∧ t.life.registration = none ∧
      t.life.log = b.life.farewell config.client := by
  obtain ⟨c, hcancel, hserver⟩ : ∃ c, b.next config (.ofDrain .cancel) = some c ∧
      c.server = { b.server with stop := true } := h.sides.1.serves rfl rfl rfl 0 []
  obtain ⟨hclog, hcreg⟩ := (next_moves hcancel).sends_nothing
  have hcancelled := h.snoc hcancel
  obtain ⟨-, ⟨ready, past, hrunning⟩, -⟩ := hcancelled.sides
  obtain ⟨drain, server, hrun, hreturned, hdrain⟩ :=
    Server.drains hrunning.inv (by rw [hserver]) (by rw [hserver]; exact hserving)
  obtain ⟨u, hreaches, hlater, rfl, hlog, hreg⟩ := hcancelled.drains hdrain hrun
  obtain ⟨hlinked, ⟨ready, past, hserver⟩, actions, hclient⟩ := hreaches.sides
  have hrest := hlinked.rest (hserver.staged.idle hreturned)
  obtain ⟨t, hnext, hnone, hfarewell, hsame⟩ := deregisters hclient (.inl hreturned) hrest
  refine ⟨drain, t, hdrain, Machine.exec_cons.mpr ⟨c, hcancel, ?_⟩, by rw [hsame]; exact hreturned,
    hnone, hfarewell.trans (ScannerClient.farewell_congr (hlog.trans hclog) (hreg.trans hcreg))⟩
  exact Machine.exec_append.mpr ⟨u, hlater, Machine.exec_cons.mpr ⟨t, hnext, rfl⟩⟩

theorem sampleEvents_accepting :
    (sampleBridge sampleEvents).map (·.server.serving) = some .accepting := by
  decide +kernel

/-- The bridge is closed in the middle of a message. -/
theorem closes_from_message : ∃ b drain t, Reaches sampleConfig sampleEvents b ∧
    Machine.exec (next sampleConfig) b
      (.ofDrain .cancel :: (List.map .ofDrain drain ++ [.deregister])) = some t ∧
    t.life.log = b.life.farewell sampleConfig.client := by
  obtain ⟨b, hb, haccepting⟩ := Option.map_eq_some_iff.mp sampleEvents_accepting
  have hreaches := sampleBridge_reaches hb
  obtain ⟨drain, t, -, hrun, -, -, hlog⟩ := closes hreaches (by rw [haccepting]; decide)
  exact ⟨b, drain, t, hreaches, hrun, hlog⟩

end Bridge

end MtaHooks
