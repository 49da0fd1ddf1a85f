import MtaHooks.Bridge.Linked

namespace MtaHooks

open Hooks
open ScannerClient (Life Task)

/-!
# Delivery

The two sides of the bridge wait for each other: a connection for its invocation, an invocation
for the connection to poll it.  From the link between them it follows who can go on, and to whom
a result goes.

* `Bridge.unhindered` — only a keepalive holds an invocation up, until its write ends, and the
  policy of a connection never panics;
* `Bridge.decisions_own` — a connection takes the result of its own invocation, and a decision is
  the answer to a request that was built from its own session.
-/

/-! ### The session of a connection that waits -/

namespace Server

variable {config : ServerConfig} {policy : Policy} {s t : Server}

/-- A connection that waits can be asked about. -/
theorem awaited_waiting {past : List ServerEvent} (h : Inv config policy s past)
    (hfew : config.limits.headers < 2 ^ 32) {n : ℕ} {stage : Stage} {session : Session}
    (hawaited : s.awaited n = some (stage, session)) (requestId : Str) :
    Task.Waiting { session, stage, requestId } := by
  obtain ⟨c, hlive, hawaits⟩ := awaited_some.mp hawaited
  obtain ⟨rfl, frames, close, hphase⟩ := awaits_phase hawaits
  have hsound := sound_of_runs h.pooled (live_some.mp hlive).1
  obtain ⟨hpending, -⟩ := hsound.waiting _ _ _ hphase
  have hheaders := hsound.session.headers_le
  rw [hsound.limits] at hheaders
  exact ⟨hsound.session, hpending, lt_of_le_of_lt hheaders hfew⟩

/-- Tasks crash in a crash only. -/
theorem moves_uncrashed {event : ServerEvent} (h : Moves config policy s event t)
    (hevent : ∀ n, event ≠ .crash n) (hs : ∀ c ∈ s.tasks, c.fate ≠ .crashed) :
    ∀ c ∈ t.tasks, c.fate ≠ .crashed := by
  have hset : ∀ {n fate} {c : ConnectionTask}, c.fate = fate → fate ≠ .crashed →
      ∀ c' ∈ s.tasks.set n c, c'.fate ≠ .crashed := by
    intro n fate c hc hne c' hmem
    rcases List.mem_or_eq_of_mem_set hmem with hmem | rfl
    · exact hs c' hmem
    · rwa [hc]
  cases h with
  | wait elapsed => exact hs
  | cancel => exact hs
  | unready => exact hs
  | overload hserving hpermits => exact hs
  | take hserving hpermits =>
    intro c hmem
    rcases List.mem_append.mp hmem with hmem | hmem
    · exact hs c hmem
    · obtain rfl := List.mem_singleton.mp hmem
      exact Fate.noConfusion
  | fail hserving => exact hs
  | goes hlive hpossible hdriver hcount hphase => exact hset (live_some.mp hlive).2 (by decide)
  | returns hlive hpossible hdriver hcount hphase hreturned =>
    exact hset (show _ = Fate.returned from rfl) (by decide)
  | crash hlive hevaluating hdropped => exact absurd rfl (hevent _)
  | abort hlive hserving hdropped =>
    exact hset (show _ = Fate.aborted from rfl) (by decide)
  | leave hserving hstop => exact hs
  | drained hserving hidle => exact hs
  | deadline hserving hidle => exact hs
  | joined hserving hidle => exact hs

end Server

namespace Bridge

variable {Url Origin : Type} {config : BridgeConfig Url Origin} {b t : Bridge Url}

/-- The invocations that are under way can be asked about. -/
theorem Linked.waiting (h : b.Linked) {ready : Bool} {past : List ServerEvent}
    (hserver : Server.Reaches config.server (policy config) ready past b.server)
    (hfew : config.server.limits.headers < 2 ^ 32) {i : ℕ}
    (hactive : (b.life.invocation i).isActive = true) : (taskOf b.calls i).Waiting := by
  obtain ⟨call, hcall, hfuture⟩ := h.active i hactive
  obtain ⟨call', hcall', -, hawaited, -⟩ := h.waits _ i hfuture
  obtain rfl := Option.some.inj (hcall.symm.trans hcall')
  rw [taskOf_call hcall]
  exact Server.awaited_waiting hserver.inv hfew hawaited call.requestId

/-- A connection takes the result of its invocation. -/
theorem Linked.delivers (h : b.Linked) {ready : Bool} {past : List ServerEvent}
    (hserver : Server.Reaches config.server (policy config) ready past b.server) {i : ℕ}
    (hactive : (b.life.invocation i).isActive = true) {result : Result Decision}
    (hsafe : result.Safe) (life : Life Url) :
    ∃ call t, b.calls[i]? = some call ∧ b.deliver config life i result = some t ∧ t.life = life ∧
      (∃ d frames close, (b.server.live call.connection).map (·.driver) = some d ∧
        d.phase = .evaluating call.stage frames close ∧ d.session = call.session ∧
        t.server.tasks[call.connection]?.map (·.driver) =
          some (d.conclude config.server.failOpen frames close result)) ∧
      ∀ n ≠ call.connection, t.server.tasks[n]? = b.server.tasks[n]? := by
  obtain ⟨call, hcall, hfuture⟩ := h.active i hactive
  obtain ⟨call', hcall', -, hawaited, -⟩ := h.waits _ i hfuture
  obtain rfl := Option.some.inj (hcall.symm.trans hcall')
  obtain ⟨server, hserve, hdriver, hothers⟩ := Server.takes_outcome hserver.inv hawaited hsafe
  have hserve' : b.serve config (.ofPolicy call.connection result) = some server :=
    (congrArg _ (Server.ofPolicy_safe _ hsafe)).trans hserve
  refine ⟨call, { b with
    server, life, future := Function.update b.future call.connection none }, hcall, ?_, rfl,
    hdriver, hothers⟩
  simp only [deliver, hcall, hserve', Option.bind_eq_bind, Option.bind_some, Option.pure_def]

variable [DecidableEq Origin]

/-- The result of an invocation is no panic. -/
theorem Linked.safe (h : b.Linked) {ready : Bool} {past : List ServerEvent}
    (hserver : Server.Reaches config.server (policy config) ready past b.server)
    (hfew : config.server.limits.headers < 2 ^ 32) {action : ScannerClient.Action} {i : ℕ}
    {life : Life Url} {result : Result Decision} (hi : action.invoking = some i)
    (hlife : b.work config b.calls action = some life)
    (hfinished : life.invocation i = .finished result) : result.Safe := by
  have hmoves := ScannerClient.next_moves hlife
  exact hmoves.safe hi (h.waiting hserver hfew (hmoves.works hi).1) hfinished

/-- No connection crashes in one event. -/
theorem Linked.uncrashed (h : b.Linked) {ready : Bool} {past : List ServerEvent}
    (hserver : Server.Reaches config.server (policy config) ready past b.server)
    (hfew : config.server.limits.headers < 2 ^ 32) {event : BridgeEvent}
    (hmoves : Moves config b event t) (hb : ∀ c ∈ b.server.tasks, c.fate ≠ .crashed) :
    ∀ c ∈ t.server.tasks, c.fate ≠ .crashed := by
  have hserve : ∀ {event server}, event.isPolicy = false →
      b.serve config event = some server → ∀ c ∈ server.tasks, c.fate ≠ .crashed := by
    intro event server hpolicy hserve
    refine Server.moves_uncrashed (Server.next_moves hserve) (fun n hcrash => ?_) hb
    rw [hcrash] at hpolicy
    cases hpolicy
  have hresult : ∀ {n result server}, Result.Safe result →
      b.serve config (.ofPolicy n result) = some server →
      ∀ c ∈ server.tasks, c.fate ≠ .crashed := by
    intro n result server hsafe hserve
    rw [Server.ofPolicy_safe n hsafe] at hserve
    exact Server.moves_uncrashed (Server.next_moves hserve) (fun m => by simp) hb
  cases hmoves with
  | serves hpolicy hpermits hserver hsame now requestId => exact hserve hpolicy hserver
  | begins hpolicy hpermits hserver htarget hbefore hafter hlife => exact hserve hpolicy hserver
  | cancels hpolicy hpermits hserver htarget hafter hfuture hlife now requestId =>
    exact hserve hpolicy hserver
  | notifies hinterval hawaited hquiet => exact hb
  | works hi hpolled hlife hgoing => exact hb
  | finishes hi hpolled hlife hfinished hcall hserve' =>
    exact hresult (h.safe hserver hfew hi hlife hfinished) hserve'
  | expires hpolled hlife hcall hserver => exact hresult (.error rfl) hserver
  | deregisters hserving hlife => exact hb

/-- **No connection crashes**, in any run. -/
theorem Reaches.uncrashed {events : List BridgeEvent} (h : Reaches config events b)
    (hfew : config.server.limits.headers < 2 ^ 32) : ∀ c ∈ b.server.tasks, c.fate ≠ .crashed := by
  obtain ⟨transport, start, startupWait, fuel, e, reg, ready, server, world, hclock, hstarted,
    hreg, hserver, hrun⟩ := h
  have hstart : ∀ c ∈ (started server e.log reg).server.tasks, c.fate ≠ .crashed := by
    obtain ⟨-, rfl⟩ := Server.start_ok hserver
    intro c hc
    cases hc
  refine (Machine.exec_invariant_on (P := fun b => Inv config server (.started e.log reg) b ∧
    ∀ c ∈ b.server.tasks, c.fate ≠ .crashed) hrun ⟨.initial hserver, hstart⟩ ?_).2
  rintro b t event - hnext ⟨hinv, hb⟩
  obtain ⟨past, hpast⟩ := hinv.server
  exact ⟨hinv.moves (next_moves hnext),
    hinv.linked.uncrashed ⟨server, hserver, hpast⟩ hfew (next_moves hnext) hb⟩

/-! ### The main results -/

/-- An invocation can start. -/
theorem Linked.begins (h : b.Linked) (server : Server) (call : Invoked) (now : ℕ) :
    ∃ t, b.begin config server call now = some t ∧ t.server = server := by
  have hidle := h.unborn b.calls.length le_rfl
  have hlife : b.work config (b.calls ++ [call]) (.evaluate b.calls.length now) =
      some (b.life.move b.calls.length
        (.registering { deadline := now + config.client.timeout })) := by
    simp only [work, ScannerClient.next, hidle]
  simp [begin, hlife]

/-- An invocation that is under way can be dropped. -/
theorem drops (config : BridgeConfig Url Origin) {i : ℕ}
    (hactive : (b.life.invocation i).isActive = true) :
    ∃ life, b.work config b.calls (.drop i) = some life := by
  simp [work, ScannerClient.next, hactive]

/-- The invocation of a connection that waits can be cancelled. -/
theorem Linked.cancels (h : b.Linked) {n : ℕ} (hawaited : b.server.awaited n ≠ none)
    (server : Server) : ∃ t, b.cancel config server n = some t ∧ t.server = server := by
  obtain ⟨i, hfuture⟩ := Option.ne_none_iff_exists'.mp (h.held n hawaited)
  obtain ⟨call, -, -, -, hactive⟩ := h.waits n i hfuture
  obtain ⟨life, hlife⟩ := drops config hactive
  simp [cancel, hfuture, hlife]

/-- The bridge takes what the server takes by itself, unless a keepalive holds it up. -/
theorem Linked.serves (h : b.Linked) {event : ServerEvent} {server : Server}
    (hpolicy : event.isPolicy = false) (hpermits : b.permits event = true)
    (hserve : b.serve config event = some server) (now : ℕ) (requestId : Str) :
    ∃ t, b.next config (.server event now requestId) = some t ∧ t.server = server := by
  have hquiet : Linked { b with notifying := b.quieted event } :=
    h.keeps (fun _ => rfl) fun _ => .inl rfl
  simp only [next, hpolicy, hpermits, Bool.not_true, Bool.or_false, Bool.false_eq_true, if_false,
    hserve, Option.bind_eq_bind, Option.bind_some]
  split
  next => exact ⟨_, rfl, rfl⟩
  next n _ =>
    split
    next => exact hquiet.begins _ _ _
    next hawaited _ => exact hquiet.cancels (by rw [hawaited]; exact Option.some_ne_none _) _
    next => exact ⟨_, rfl, rfl⟩

/-- An event of the server after which its connection waits for the same starts and drops no
    invocation. -/
theorem next_same {event : ServerEvent} {server : Server} (hpolicy : event.isPolicy = false)
    (hpermits : b.permits event = true) (hserve : b.serve config event = some server)
    (hsame : ∀ n, event.target = some n → server.awaited n = b.server.awaited n) (now : ℕ)
    (requestId : Str) :
    b.next config (.server event now requestId) =
      some { b with server, notifying := b.quieted event } := by
  simp only [next, hpolicy, hpermits, Bool.not_true, Bool.or_false, Bool.false_eq_true, if_false,
    hserve, Option.bind_eq_bind, Option.bind_some]
  split
  next => rfl
  next n htarget =>
    rw [hsame n htarget]
    cases b.server.awaited n <;> rfl

/-- The keepalive of a connection can end in every way. -/
theorem Linked.ticks (h : b.Linked) {ready : Bool} {past : List ServerEvent}
    (hserver : Server.Reaches config.server (policy config) ready past b.server)
    (hnotified : Notified config b) {n : ℕ} (hn : b.notifying n = true) {write : Write}
    (hwrite : write.endsKeepalive = true) (now : ℕ) (requestId : Str) :
    ∃ t, b.next config (.server (.connection n (.tick write)) now requestId) = some t ∧
      t.notifying n = false ∧
      (write = .done → t.life = b.life ∧ t.server.awaited n = b.server.awaited n ∧
        ∀ i call, b.calls[i]? = some call → call.connection = n → t.polled i = true) := by
  obtain ⟨hinterval, hawaited⟩ := hnotified n hn
  obtain ⟨a, ha⟩ := Option.ne_none_iff_exists'.mp hawaited
  obtain ⟨server, hserve, hsame⟩ := Server.takes_keepalive hserver.inv hinterval ha hwrite
  have hpolicy : (ServerEvent.connection n (.tick write)).isPolicy = false := rfl
  have hpermits : b.permits (.connection n (.tick write)) = true := hn
  have hquieted : b.quieted (.connection n (.tick write)) n = false := Function.update_self _ _ _
  cases hdone : write with
  | done =>
    subst hdone
    have hkeeps : ∀ m, (ServerEvent.connection n (.tick .done)).target = some m →
        server.awaited m = b.server.awaited m := by
      intro m hm
      obtain rfl := Option.some.inj hm
      exact (hsame rfl).trans ha.symm
    refine ⟨_, next_same hpolicy hpermits hserve hkeeps now requestId, hquieted, fun _ =>
      ⟨rfl, hkeeps n rfl, fun i call hcall hconnection => ?_⟩⟩
    simp only [polled, hcall, hconnection, hquieted, Option.all_some, Bool.not_false]
  | torn sent e =>
    subst hdone
    obtain ⟨t, hnext, -⟩ := h.serves hpolicy hpermits hserve now requestId
    refine ⟨t, hnext, ?_, fun hdone => by cases hdone⟩
    cases next_moves hnext with
    | serves hpolicy hpermits hserver hsame => exact hquieted
    | begins hpolicy hpermits hserver htarget hbefore hafter hlife => exact hquieted
    | cancels hpolicy hpermits hserver htarget hafter hfuture hlife => exact hquieted

/-- An invocation that is polled can end with its deadline. -/
theorem Linked.expires (h : b.Linked) {ready : Bool} {past : List ServerEvent}
    (hserver : Server.Reaches config.server (policy config) ready past b.server) {i : ℕ}
    (hactive : (b.life.invocation i).isActive = true) (hpolled : b.polled i = true) :
    ∃ t, b.next config (.expire i) = some t ∧ t.life.invocation i = .dropped := by
  obtain ⟨life, hlife⟩ := drops config hactive
  have hsafe : Result.Safe (.error .timeout : Result Decision) := .error rfl
  obtain ⟨call, t, -, hdeliver, ht, -⟩ := h.delivers hserver hactive hsafe life
  refine ⟨t, Eq.trans ?_ hdeliver, ?_⟩
  · simp only [next, hpolled, hlife, Option.bind_eq_bind, Option.bind_some, if_true]
  · rw [ht]
    cases ScannerClient.next_moves hlife with
    | drops hactive => exact b.life.move_self i _

/-- The connection of the sample writes a keepalive while the scanner works. -/
def sampleNotifying : List BridgeEvent := sampleEvents ++ [.notify 0]

/-- The invocation is under way, and cannot end while its connection writes. -/
theorem sampleNotifying_held : (sampleBridge sampleNotifying).map (fun b =>
    (b.notifying 0, (b.life.invocation 0).isActive, b.calls[0]?.map Invoked.connection,
      (b.next sampleConfig (.expire 0)).isNone)) = some (true, true, some 0, true) := by
  decide +kernel

/-- An event ends an invocation, with a result. -/
def Concludes (t : Bridge Url) (i : ℕ) (result : Result Decision) : BridgeEvent → Prop
  | .client action => action.invoking = some i ∧ t.life.invocation i = .finished result
  | .expire j => j = i ∧ result = .error .timeout
  | _ => False

/-- An invocation that has ended was under way, and has delivered its result. -/
theorem concludes_delivers {event : BridgeEvent} {i : ℕ} {result : Result Decision}
    (hnext : b.next config event = some t) (h : t.Concludes i result event) :
    ∃ action life, b.work config b.calls action = some life ∧
      (b.life.invocation i).isActive = true ∧ b.deliver config life i result = some t ∧
      (event = .client action ∧ action.invoking = some i ∧ life.invocation i = .finished result ∨
        result = .error .timeout) := by
  cases event with
  | client action =>
    obtain ⟨hi, hfinished⟩ := h
    simp only [next, hi, Option.bind_eq_bind, Option.bind_some] at hnext
    split at hnext
    next hpolled =>
      obtain ⟨life, hlife, hnext⟩ := Option.bind_eq_some_iff.mp hnext
      have hactive := ((ScannerClient.next_moves hlife).works hi).1
      split at hnext
      next result' hended =>
        have hlife' : t.life = life := by
          obtain ⟨call, server, -, -, rfl⟩ := deliver_some hnext
          rfl
        rw [hlife'] at hfinished
        obtain rfl := ScannerClient.Phase.finished.inj (hended.symm.trans hfinished)
        exact ⟨action, life, hlife, hactive, hnext, .inl ⟨rfl, hi, hended⟩⟩
      next hgoing =>
        obtain rfl := Option.some.inj hnext
        exact absurd hfinished (hgoing result)
    next => cases hnext
  | expire j =>
    obtain ⟨rfl, rfl⟩ := h
    simp only [next] at hnext
    split at hnext
    next hpolled =>
      obtain ⟨life, hlife, hnext⟩ := Option.bind_eq_some_iff.mp hnext
      cases ScannerClient.next_moves hlife with
      | drops hactive => exact ⟨_, _, hlife, hactive, hnext, .inr rfl⟩
    next => cases hnext
  | server event now requestId => exact h.elim
  | notify n => exact h.elim
  | deregister => exact h.elim

/-- **Decisions are a connection's own.**  Whatever the connections, the invocations and the
    scanner do in between: the result of an invocation, which is a timeout where its deadline ends
    it, goes to the one connection that was evaluating this callback on this session, which
    composes its reply from it, and no other connection notices.  A decision is the answer to a
    request that was sent under the invocation's own id, with the body built from this session for
    a confirmed registration. -/
theorem decisions_own {config : BridgeConfig Url Origin} {events : List BridgeEvent}
    {b t : Bridge Url} (h : Reaches config events b)
    (hfew : config.server.limits.headers < 2 ^ 32) {event : BridgeEvent} {i : ℕ}
    {result : Result Decision} (hnext : b.next config event = some t)
    (hconcludes : t.Concludes i result event) :
    ∃ call, b.calls[i]? = some call ∧
      (∃ d frames close, (b.server.live call.connection).map (·.driver) = some d ∧
        d.phase = .evaluating call.stage frames close ∧ d.session = call.session ∧
        t.server.tasks[call.connection]?.map (·.driver) =
          some (d.conclude config.server.failOpen frames close result)) ∧
      (∀ n ≠ call.connection, t.server.tasks[n]? = b.server.tasks[n]?) ∧
      ∀ decision, result = .ok decision → ∃ exchange now random reg utc timestamp body,
        event = .client (.hook i exchange now random) ∧ .confirmed utc reg ∈ b.life.log ∧
        request config.client.b64 timestamp call.session call.stage reg.properties = .ok body ∧
        .sent (config.client.hookRequest reg call.requestId body) ∈ b.life.log ∧
        config.client.Decides call.toTask exchange decision := by
  obtain ⟨hlinked, ⟨ready, past, hserver⟩, actions, hclient⟩ := h.sides
  obtain ⟨action, life, hlife, hactive, hdelivered, hended⟩ := concludes_delivers hnext hconcludes
  have hsafe : result.Safe := by
    rcases hended with ⟨-, hi, hfinished⟩ | rfl
    · exact hlinked.safe hserver hfew hi hlife hfinished
    · exact .error rfl
  obtain ⟨call, t', hcall, ht', -, hdriver, hothers⟩ := hlinked.delivers hserver hactive hsafe life
  obtain rfl := Option.some.inj (hdelivered.symm.trans ht')
  refine ⟨call, hcall, hdriver, hothers, ?_⟩
  rintro decision rfl
  obtain ⟨rfl, hi, hfinished⟩ : event = .client action ∧ action.invoking = some i ∧
      life.invocation i = .finished (.ok decision) := hended.resolve_right (by simp)
  obtain ⟨exchange, now, random, reg, body, x, rfl, hphase, hdecides⟩ :=
    (ScannerClient.next_moves hlife).decides hi hfinished
  have hbacked := hclient.provenance.1.backed i
  rw [hphase] at hbacked
  obtain ⟨utc, hknown⟩ := hbacked.known reg _ rfl
  obtain ⟨timestamp, hbody⟩ := hbacked.body reg body rfl
  have hposted := hclient.posted i reg body x hphase
  rw [taskOf_call hcall] at hdecides hbody hposted
  exact ⟨exchange, now, random, reg.toRegistration, utc, timestamp, body, rfl, hknown, hbody,
    hposted, hdecides⟩

/-- The decision of an invocation. -/
def decision (b : Bridge Url) (i : ℕ) : Option Decision :=
  match b.life.invocation i with
  | .finished (.ok decision) => some decision
  | _ => none

/-- The decision of an invocation is what it has finished with. -/
theorem decision_eq_some {i : ℕ} {d : Decision} (h : b.decision i = some d) :
    b.life.invocation i = .finished (.ok d) := by
  unfold decision at h
  split at h
  next hfinished =>
    obtain rfl := Option.some.inj h
    exact hfinished
  next => cases h

/-- The scanner is asked about the message. -/
def sampleAsked : List BridgeEvent :=
  sampleEvents ++ [.client (.registered 0 200 (ascii "t"))]

/-- The scanner has nothing to say. -/
def sampleReply : ScannerClient.Action := .hook 0 (.ok { status := 204 }) 120 0

/-- The reply decides the callback. -/
theorem sampleReply_decides : ((sampleBridge sampleAsked).bind fun b =>
    (b.next sampleConfig (.client sampleReply)).bind fun t => t.decision 0) = some {} := by
  decide +kernel

/-- The decision of the sample was asked for in the name of its own invocation. -/
theorem decisions_own_at_reply : ∃ b reg call body, Reaches sampleConfig sampleAsked b ∧
    b.calls[0]? = some call ∧
    .sent (sampleConfig.client.hookRequest reg call.requestId body) ∈ b.life.log := by
  obtain ⟨b, hb, h⟩ := Option.bind_eq_some_iff.mp sampleReply_decides
  obtain ⟨t, hnext, hdecision⟩ := Option.bind_eq_some_iff.mp h
  have hreaches := sampleBridge_reaches hb
  obtain ⟨call, hcall, -, -, hown⟩ :=
    decisions_own hreaches (by decide) hnext ⟨rfl, decision_eq_some hdecision⟩
  obtain ⟨exchange, now, random, reg, utc, timestamp, body, -, -, -, hsent, -⟩ := hown {} rfl
  exact ⟨b, reg, call, body, hreaches, hcall, hsent⟩

end Bridge

end MtaHooks
