import MtaHooks.Bridge.Awaited

namespace MtaHooks

open Hooks
open ScannerClient (Life)

/-!
# Connections and invocations

The server and the client are two machines; the bridge moves both in one step where a callback
starts, ends or is dropped.  The link is kept by each kind of step, for whichever connections
write a keepalive meanwhile.

* `Bridge.Linked` — the connections that wait and the invocations that run belong together, one
  to one, with the same callback and the same session;
* `Bridge.linked` — the link holds in every run, and each side of the bridge runs by its own rules.
-/

namespace Bridge

variable {Url Origin : Type}

/-- What holds between the connections and the invocations. -/
structure Linked (b : Bridge Url) : Prop where
  waits : ∀ n i, b.future n = some i → ∃ call, b.calls[i]? = some call ∧ call.connection = n ∧
    b.server.awaited n = some (call.stage, call.session) ∧ (b.life.invocation i).isActive = true
  active : ∀ i, (b.life.invocation i).isActive = true →
    ∃ call, b.calls[i]? = some call ∧ b.future call.connection = some i
  held : ∀ n, b.server.awaited n ≠ none → b.future n ≠ none
  unborn : ∀ i, b.calls.length ≤ i → b.life.invocation i = .idle

namespace Linked

variable {b : Bridge Url} {server : Server} {life : Life Url} {notifying : ℕ → Bool}

/-- Before the first event nothing waits, and nothing is under way. -/
theorem started (server : Server) (log : List (Entry Url))
    (reg : ScannerClient.Registration Url) (hawaited : ∀ n, server.awaited n = none) :
    (started server log reg).Linked where
  waits := fun n i h => by cases h
  active := fun i h => by cases h
  held := fun n h => absurd (hawaited n) h
  unborn := fun _ _ => rfl

/-- The connections wait for the same, and the same invocations are under way. -/
theorem keeps (h : b.Linked) (hserver : ∀ n, server.awaited n = b.server.awaited n)
    (hlife : ∀ i, life.invocation i = b.life.invocation i ∨
      (b.life.invocation i).isActive = true ∧ (life.invocation i).isActive = true) :
    Linked { b with server, life, notifying } where
  waits := by
    intro n i hfuture
    obtain ⟨call, hcall, hn, hawaited, hactive⟩ := h.waits n i hfuture
    refine ⟨call, hcall, hn, (hserver n).trans hawaited, ?_⟩
    rcases hlife i with heq | ⟨-, hgoing⟩
    · exact (congrArg _ heq).trans hactive
    · exact hgoing
  active := by
    intro i hactive
    rcases hlife i with heq | ⟨hgoing, -⟩
    · exact h.active i ((congrArg _ heq.symm).trans hactive)
    · exact h.active i hgoing
  held := fun n hn => h.held n (hserver n ▸ hn)
  unborn := by
    intro i hi
    rcases hlife i with heq | ⟨hgoing, -⟩
    · exact heq.trans (h.unborn i hi)
    · rw [h.unborn i hi] at hgoing
      cases hgoing

/-- A connection starts to wait, and an invocation for it starts to run. -/
theorem opens (h : b.Linked) {call : Invoked}
    (hbefore : b.server.awaited call.connection = none)
    (hafter : server.awaited call.connection = some (call.stage, call.session))
    (hserver : ∀ n ≠ call.connection, server.awaited n = b.server.awaited n)
    (hactive : (life.invocation b.calls.length).isActive = true)
    (hlife : ∀ i ≠ b.calls.length, life.invocation i = b.life.invocation i) :
    Linked
      { server, life, notifying,
        calls := b.calls ++ [call]
        future := Function.update b.future call.connection b.calls.length } := by
  have hfree : b.future call.connection = none := by
    by_contra hheld
    obtain ⟨i, hi⟩ := Option.ne_none_iff_exists'.mp hheld
    obtain ⟨c, -, -, hawaited, -⟩ := h.waits _ i hi
    rw [hbefore] at hawaited
    cases hawaited
  have hearlier : ∀ {i c}, b.calls[i]? = some c → i ≠ b.calls.length ∧
      (b.calls ++ [call])[i]? = some c := by
    intro i c hc
    obtain ⟨hlt, -⟩ := List.getElem?_eq_some_iff.mp hc
    exact ⟨hlt.ne, (List.getElem?_append_left hlt).trans hc⟩
  refine ⟨fun n i hfuture => ?_, fun i hi => ?_, fun n hn => ?_, fun i hi => ?_⟩
  · dsimp only at hfuture ⊢
    by_cases hn : n = call.connection
    · subst hn
      rw [Function.update_self] at hfuture
      obtain rfl := Option.some.inj hfuture
      exact ⟨call, List.getElem?_concat_length, rfl, hafter, hactive⟩
    · rw [Function.update_of_ne hn] at hfuture
      obtain ⟨c, hc, hcn, hawaited, hgoing⟩ := h.waits n i hfuture
      obtain ⟨hne, hc'⟩ := hearlier hc
      exact ⟨c, hc', hcn, (hserver n hn).trans hawaited, (congrArg _ (hlife i hne)).trans hgoing⟩
  · dsimp only at hi ⊢
    by_cases hnew : i = b.calls.length
    · subst hnew
      exact ⟨call, List.getElem?_concat_length, Function.update_self _ _ _⟩
    · obtain ⟨c, hc, hfuture⟩ := h.active i ((congrArg _ (hlife i hnew).symm).trans hi)
      have hne : c.connection ≠ call.connection := by
        intro heq
        rw [heq, hfree] at hfuture
        cases hfuture
      exact ⟨c, (hearlier hc).2, (Function.update_of_ne hne _ _).trans hfuture⟩
  · dsimp only at hn ⊢
    by_cases heq : n = call.connection
    · subst heq
      rw [Function.update_self]
      exact Option.some_ne_none _
    · rw [Function.update_of_ne heq]
      exact h.held n (hserver n heq ▸ hn)
  · dsimp only at hi ⊢
    have hlt : b.calls.length < i := by
      rw [List.length_append, List.length_singleton] at hi
      omega
    exact (hlife i hlt.ne').trans (h.unborn i hlt.le)

/-- A connection waits no more, and its invocation is over. -/
theorem shuts (h : b.Linked) {n i : ℕ} (hfuture : b.future n = some i)
    (hafter : server.awaited n = none)
    (hserver : ∀ m ≠ n, server.awaited m = b.server.awaited m)
    (hover : (life.invocation i).isActive = false)
    (hlife : ∀ j ≠ i, life.invocation j = b.life.invocation j) :
    Linked { b with server, life, notifying, future := Function.update b.future n none } := by
  obtain ⟨call, hcall, hn, -, -⟩ := h.waits n i hfuture
  refine ⟨fun m j hm => ?_, fun j hj => ?_, fun m hm => ?_, fun j hj => ?_⟩
  · dsimp only at hm ⊢
    by_cases heq : m = n
    · subst heq
      rw [Function.update_self] at hm
      cases hm
    · rw [Function.update_of_ne heq] at hm
      obtain ⟨c, hc, hcm, hawaited, hgoing⟩ := h.waits m j hm
      have hji : j ≠ i := by
        rintro rfl
        obtain rfl := Option.some.inj (hcall.symm.trans hc)
        exact heq (hcm.symm.trans hn)
      exact ⟨c, hc, hcm, (hserver m heq).trans hawaited, (congrArg _ (hlife j hji)).trans hgoing⟩
  · dsimp only at hj ⊢
    have hji : j ≠ i := by
      rintro rfl
      rw [hover] at hj
      cases hj
    obtain ⟨c, hc, hheld⟩ := h.active j ((congrArg _ (hlife j hji).symm).trans hj)
    have hne : c.connection ≠ n := by
      intro heq
      rw [heq, hfuture] at hheld
      exact hji (Option.some.inj hheld).symm
    exact ⟨c, hc, (Function.update_of_ne hne _ _).trans hheld⟩
  · dsimp only at hm ⊢
    have hne : m ≠ n := by
      rintro rfl
      exact hm hafter
    rw [Function.update_of_ne hne]
    exact h.held m (hserver m hne ▸ hm)
  · dsimp only at hj ⊢
    have hlt : i < b.calls.length := (List.getElem?_eq_some_iff.mp hcall).1
    have hji : j ≠ i := by
      rintro rfl
      exact absurd hj (by simpa using hlt)
    exact (hlife j hji).trans (h.unborn j hj)

variable {config : BridgeConfig Url Origin} {t : Bridge Url}

/-- The connection of an invocation that is over waits no more. -/
theorem finish (h : b.Linked) {i : ℕ} {call : Invoked} {result : Result Decision}
    (hcall : b.calls[i]? = some call)
    (hserver : b.serve config (.ofPolicy call.connection result) = some server)
    (hactive : (b.life.invocation i).isActive = true)
    (hover : (life.invocation i).isActive = false)
    (hlife : ∀ j ≠ i, life.invocation j = b.life.invocation j) :
    Linked
      { b with
        server, life, notifying, future := Function.update b.future call.connection none } := by
  obtain ⟨call', hcall', hfuture⟩ := h.active i hactive
  obtain rfl := Option.some.inj (hcall.symm.trans hcall')
  have hmoves := Server.next_moves hserver
  obtain ⟨htarget, hpolicy⟩ := Server.ofPolicy_target call.connection result
  refine h.shuts hfuture (Server.moves_policy hmoves hpolicy htarget) (fun m hm => ?_) hover hlife
  refine (Server.moves_awaited hmoves).1 m fun heq => hm ?_
  exact Option.some.inj (heq.symm.trans htarget)

variable [DecidableEq Origin]

/-- **One event** keeps connections and invocations together. -/
theorem moves {event : BridgeEvent} (h : b.Linked) (hmoves : Moves config b event t) :
    t.Linked := by
  have hothers : ∀ {calls action life i}, b.work config calls action = some life →
      action.invocation = some i → ∀ j ≠ i, life.invocation j = b.life.invocation j := by
    intro calls action life i hlife hi j hj
    refine (ScannerClient.next_moves hlife).others fun heq => hj ?_
    exact Option.some.inj (heq.symm.trans hi)
  have hdrops : ∀ {i life}, b.work config b.calls (.drop i) = some life →
      (b.life.invocation i).isActive = true ∧ life.invocation i = .dropped := by
    intro i life hlife
    cases ScannerClient.next_moves hlife with
    | drops hactive => exact ⟨hactive, b.life.move_self i _⟩
  cases hmoves with
  | @serves event server hpolicy hpermits hserver hsame now requestId =>
    obtain ⟨hne, hsteady⟩ := Server.moves_awaited (Server.next_moves hserver)
    refine h.keeps (fun n => ?_) fun _ => .inl rfl
    by_cases hn : event.target = some n
    · have hsome := hsame n hn
      cases hbefore : b.server.awaited n with
      | none =>
        rw [hbefore] at hsome
        exact Option.not_isSome_iff_eq_none.mp (by rw [hsome]; exact Bool.false_ne_true)
      | some a =>
        rcases hsteady n a hn hbefore with hnone | hgoing
        · rw [hnone, hbefore] at hsome
          cases hsome
        · exact hgoing
    · exact hne n hn
  | @begins event server life n now requestId stage session hpolicy hpermits hserver htarget
      hbefore hafter hlife =>
    have hne := (Server.moves_awaited (Server.next_moves hserver)).1
    refine h.opens hbefore hafter (fun m hm => hne m fun heq => hm ?_) ?_ (hothers hlife rfl)
    · exact Option.some.inj (heq.symm.trans htarget)
    · cases ScannerClient.next_moves hlife with
      | begins hphase now =>
        show ((b.life.move b.calls.length _).invocation b.calls.length).isActive = true
        rw [b.life.move_self]
        rfl
  | @cancels event server life n i hpolicy hpermits hserver htarget hafter hfuture hlife now
      requestId =>
    have hne := (Server.moves_awaited (Server.next_moves hserver)).1
    refine h.shuts hfuture hafter (fun m hm => hne m fun heq => hm ?_) ?_ (hothers hlife rfl)
    · exact Option.some.inj (heq.symm.trans htarget)
    · rw [(hdrops hlife).2]
      rfl
  | notifies hinterval hawaited hquiet =>
    exact h.keeps (fun _ => rfl) fun _ => .inl rfl
  | @works action life i hi hpolled hlife hgoing =>
    refine h.keeps (fun _ => rfl) fun j => ?_
    obtain ⟨hactive, hactive' | ⟨result, hfinished⟩⟩ := (ScannerClient.next_moves hlife).works hi
    · by_cases hj : j = i
      · exact .inr (hj ▸ ⟨hactive, hactive'⟩)
      · exact .inl (hothers hlife (ScannerClient.Action.invoking_invocation hi) j hj)
    · exact absurd hfinished (hgoing result)
  | @finishes action server life i result call hi hpolled hlife hfinished hcall hserver =>
    refine h.finish hcall hserver ((ScannerClient.next_moves hlife).works hi).1 ?_
      (hothers hlife (ScannerClient.Action.invoking_invocation hi))
    rw [hfinished]
    rfl
  | @expires server life i call hpolled hlife hcall hserver =>
    obtain ⟨hactive, hdropped⟩ := hdrops hlife
    refine h.finish hcall hserver hactive ?_ (hothers hlife rfl)
    rw [hdropped]
    rfl
  | @deregisters life hserving hlife =>
    exact h.keeps (fun _ => rfl) fun j => .inl ((ScannerClient.next_moves hlife).others
      (Option.some_ne_none j).symm)

end Linked

/-! ### The sides of the bridge -/

/-- Later invocations do not change what the earlier ones are about. -/
theorem taskOf_prefix {calls all : List Invoked} (h : calls <+: all) {i : ℕ}
    (hi : i < calls.length) : taskOf all i = taskOf calls i := by
  obtain ⟨later, rfl⟩ := h
  unfold taskOf
  rw [List.getElem?_append_left hi]

/-- An invocation is about its own call. -/
theorem taskOf_call {calls : List Invoked} {i : ℕ} {call : Invoked} (h : calls[i]? = some call) :
    taskOf calls i = call.toTask := by
  unfold taskOf
  rw [h]
  rfl

variable {config : BridgeConfig Url Origin} {b t : Bridge Url}

/-- An invocation that is under way has been called. -/
theorem Linked.lt (h : b.Linked) {i : ℕ} (hactive : (b.life.invocation i).isActive = true) :
    i < b.calls.length := by
  obtain ⟨call, hcall, -⟩ := h.active i hactive
  exact (List.getElem?_eq_some_iff.mp hcall).1

/-! #### The keepalives -/

/-- Only a connection that waits writes a keepalive. -/
def Notified (config : BridgeConfig Url Origin) (b : Bridge Url) : Prop :=
  ∀ n, b.notifying n = true →
    config.server.progressInterval = true ∧ b.server.awaited n ≠ none

/-- An event ends the keepalive of its own connection. -/
theorem quieted_eq_true {event : ServerEvent} {n : ℕ} (h : b.quieted event n = true) :
    event.target ≠ some n ∧ b.notifying n = true := by
  unfold quieted at h
  cases htarget : event.target with
  | none =>
    rw [htarget] at h
    exact ⟨(Option.some_ne_none n).symm, h⟩
  | some m =>
    rw [htarget] at h
    dsimp only at h
    by_cases heq : n = m
    · rw [heq, Function.update_self] at h
      cases h
    · rw [Function.update_of_ne heq] at h
      exact ⟨fun hsame => heq (Option.some.inj hsame).symm, h⟩

/-- The keepalives of the connections that an event of the server is not about go on. -/
theorem Notified.serves (h : Notified config b) {event : ServerEvent} {server : Server}
    (hserver : b.serve config event = some server) {n : ℕ}
    (hquieted : b.quieted event n = true) :
    config.server.progressInterval = true ∧ server.awaited n ≠ none := by
  obtain ⟨htarget, hnotifying⟩ := quieted_eq_true hquieted
  have hsame := (Server.moves_awaited (Server.next_moves hserver)).1 n htarget
  obtain ⟨hinterval, hawaited⟩ := h n hnotifying
  exact ⟨hinterval, by rwa [hsame]⟩

/-- The connection of an invocation that is polled writes no keepalive. -/
theorem quiet_of_polled {i : ℕ} {call : Invoked} (hpolled : b.polled i = true)
    (hcall : b.calls[i]? = some call) : b.notifying call.connection = false := by
  rw [polled, hcall] at hpolled
  simpa using hpolled

/-- The result of an invocation that is polled goes to a connection that writes no keepalive. -/
theorem Notified.delivers (h : Notified config b) {i : ℕ} {call : Invoked}
    {result : Result Decision} {server : Server} (hpolled : b.polled i = true)
    (hcall : b.calls[i]? = some call)
    (hserver : b.serve config (.ofPolicy call.connection result) = some server) {n : ℕ}
    (hnotifying : b.notifying n = true) :
    config.server.progressInterval = true ∧ server.awaited n ≠ none := by
  have htarget : (ServerEvent.ofPolicy call.connection result).target ≠ some n := by
    rw [(Server.ofPolicy_target call.connection result).1]
    rintro heq
    obtain rfl := Option.some.inj heq
    rw [quiet_of_polled hpolled hcall] at hnotifying
    cases hnotifying
  have hsame := (Server.moves_awaited (Server.next_moves hserver)).1 n htarget
  obtain ⟨hinterval, hawaited⟩ := h n hnotifying
  exact ⟨hinterval, by rwa [hsame]⟩

variable [DecidableEq Origin]

/-- **One event** keeps that only a connection that waits writes a keepalive. -/
theorem Notified.moves {event : BridgeEvent} (h : Notified config b)
    (hmoves : Moves config b event t) : Notified config t := by
  intro n hn
  cases hmoves with
  | serves hpolicy hpermits hserver hsame now requestId => exact h.serves hserver hn
  | begins hpolicy hpermits hserver htarget hbefore hafter hlife => exact h.serves hserver hn
  | cancels hpolicy hpermits hserver htarget hafter hfuture hlife now requestId =>
    exact h.serves hserver hn
  | @notifies m hinterval hawaited hquiet =>
    by_cases heq : n = m
    · subst heq
      exact ⟨hinterval, Option.isSome_iff_ne_none.mp hawaited⟩
    · exact h n ((Function.update_of_ne heq _ _).symm.trans hn)
  | works hi hpolled hlife hgoing => exact h n hn
  | finishes hi hpolled hlife hfinished hcall hserver => exact h.delivers hpolled hcall hserver hn
  | expires hpolled hlife hcall hserver => exact h.delivers hpolled hcall hserver hn
  | deregisters hserving hlife => exact h n hn

/-! #### One event and the runs -/

/-- A step of the client is one also if there are further invocations. -/
theorem work_later {calls all : List Invoked} {action : ScannerClient.Action} {life : Life Url}
    (hlife : b.work config calls action = some life)
    (hi : ∀ i, action.invocation = some i → i < calls.length) (hall : calls <+: all) :
    Machine.exec (config.client.next (taskOf all)) b.life [action] = some life := by
  have hcongr : config.client.next (taskOf all) b.life action = some life :=
    (ScannerClient.next_congr fun i hinvocation => taskOf_prefix hall (hi i hinvocation)).trans
      hlife
  exact Machine.exec_cons.mpr ⟨life, hcongr, rfl⟩

/-- **One event** is a run of the server and a run of the client. -/
theorem Moves.sides {event : BridgeEvent} (hmoves : Moves config b event t) (h : b.Linked) :
    (∃ events, Machine.exec (Server.next config.server (policy config)) b.server events =
      some t.server) ∧ b.calls <+: t.calls ∧ ∀ all, t.calls <+: all →
      ∃ actions, Machine.exec (config.client.next (taskOf all)) b.life actions = some t.life := by
  have hserve : ∀ {event server}, b.serve config event = some server →
      ∃ events, Machine.exec (Server.next config.server (policy config)) b.server events =
        some server :=
    fun hserver => ⟨[_], Machine.exec_cons.mpr ⟨_, hserver, rfl⟩⟩
  have hwork : ∀ {action life}, b.work config b.calls action = some life →
      (∀ i, action.invocation = some i → (b.life.invocation i).isActive = true) →
      ∀ all, b.calls <+: all →
        ∃ actions, Machine.exec (config.client.next (taskOf all)) b.life actions = some life :=
    fun hlife hactive all hall => ⟨_, work_later hlife (fun i hi => h.lt (hactive i hi)) hall⟩
  have hdrop : ∀ {i life}, b.work config b.calls (.drop i) = some life → ∀ all, b.calls <+: all →
      ∃ actions, Machine.exec (config.client.next (taskOf all)) b.life actions = some life := by
    intro i life hlife
    refine hwork hlife fun j hj => ?_
    obtain rfl := Option.some.inj hj
    cases ScannerClient.next_moves hlife with
    | drops hactive => exact hactive
  have hgoes : ∀ {action life i}, b.work config b.calls action = some life →
      action.invoking = some i → ∀ all, b.calls <+: all →
      ∃ actions, Machine.exec (config.client.next (taskOf all)) b.life actions = some life := by
    intro action life i hlife hi
    refine hwork hlife fun j hj => ?_
    obtain rfl := Option.some.inj ((ScannerClient.Action.invoking_invocation hi).symm.trans hj)
    exact ((ScannerClient.next_moves hlife).works hi).1
  cases hmoves with
  | serves hpolicy hpermits hserver hsame now requestId =>
    exact ⟨hserve hserver, List.prefix_rfl, fun _ _ => ⟨[], rfl⟩⟩
  | begins hpolicy hpermits hserver htarget hbefore hafter hlife =>
    refine ⟨hserve hserver, List.prefix_append _ _, fun all hall =>
      ⟨_, work_later hlife (fun i hi => ?_) hall⟩⟩
    obtain rfl := Option.some.inj hi
    simp
  | cancels hpolicy hpermits hserver htarget hafter hfuture hlife now requestId =>
    exact ⟨hserve hserver, List.prefix_rfl, hdrop hlife⟩
  | notifies hinterval hawaited hquiet =>
    exact ⟨⟨[], rfl⟩, List.prefix_rfl, fun _ _ => ⟨[], rfl⟩⟩
  | works hi hpolled hlife hgoing => exact ⟨⟨[], rfl⟩, List.prefix_rfl, hgoes hlife hi⟩
  | finishes hi hpolled hlife hfinished hcall hserver =>
    exact ⟨hserve hserver, List.prefix_rfl, hgoes hlife hi⟩
  | expires hpolled hlife hcall hserver => exact ⟨hserve hserver, List.prefix_rfl, hdrop hlife⟩
  | deregisters hserving hlife =>
    refine ⟨⟨[], rfl⟩, List.prefix_rfl, hwork hlife fun i hi => ?_⟩
    cases hi

/-- What holds in every run: connections and invocations belong together, each side has come
    here by its own rules, the client also if there are further invocations, and only a
    connection that waits writes a keepalive. -/
structure Inv (config : BridgeConfig Url Origin) (start : Server) (life : Life Url)
    (b : Bridge Url) : Prop where
  linked : b.Linked
  server : ∃ events,
    Machine.exec (Server.next config.server (policy config)) start events = some b.server
  client : ∀ all, b.calls <+: all →
    ∃ actions, Machine.exec (config.client.next (taskOf all)) life actions = some b.life
  notified : Notified config b

/-- **Each event** keeps what holds in every run. -/
theorem Inv.moves {start : Server} {life : Life Url} {event : BridgeEvent}
    (h : Inv config start life b) (hmoves : Moves config b event t) : Inv config start life t := by
  obtain ⟨⟨events, hevents⟩, hcalls, hactions⟩ := hmoves.sides h.linked
  refine ⟨h.linked.moves hmoves, ?_, fun all hall => ?_, h.notified.moves hmoves⟩
  · obtain ⟨past, hpast⟩ := h.server
    exact ⟨past ++ events, Machine.exec_append.mpr ⟨_, hpast, hevents⟩⟩
  · obtain ⟨earlier, hearlier⟩ := h.client all (hcalls.trans hall)
    obtain ⟨actions, hactions⟩ := hactions all hall
    exact ⟨earlier ++ actions, Machine.exec_append.mpr ⟨_, hearlier, hactions⟩⟩

/-- It holds at the start. -/
theorem Inv.initial {ready : Bool} {server : Server} {log : List (Entry Url)}
    {reg : ScannerClient.Registration Url} (h : Server.start config.server ready = .ok server) :
    Inv config server (.started log reg) (started server log reg) := by
  obtain ⟨-, rfl⟩ := Server.start_ok h
  exact ⟨.started _ log reg fun _ => rfl, ⟨[], rfl⟩, fun _ _ => ⟨[], rfl⟩,
    fun _ hn => by cases hn⟩

/-- A run goes on by one event. -/
theorem Reaches.snoc {events : List BridgeEvent} {event : BridgeEvent}
    (h : Reaches config events b) (hnext : b.next config event = some t) :
    Reaches config (events ++ [event]) t := by
  obtain ⟨transport, start, startupWait, fuel, e, reg, ready, server, world, hclock, hstarted,
    hreg, hserver, hrun⟩ := h
  exact ⟨transport, start, startupWait, fuel, e, reg, ready, server, world, hclock, hstarted, hreg,
    hserver, Machine.exec_append.mpr ⟨b, hrun, Machine.exec_cons.mpr ⟨t, hnext, rfl⟩⟩⟩

/-- **Each run of the bridge** is a run of the server and one of the client. -/
theorem Reaches.sides {events : List BridgeEvent} (h : Reaches config events b) :
    b.Linked ∧ (∃ ready past, Server.Reaches config.server (policy config) ready past b.server) ∧
      ∃ actions, ScannerClient.Reaches config.client (taskOf b.calls) actions b.life := by
  obtain ⟨transport, start, startupWait, fuel, e, reg, ready, server, world, hclock, hstarted,
    hreg, hserver, hrun⟩ := h
  obtain ⟨hlinked, ⟨past, hpast⟩, hclient, -⟩ := Machine.exec_invariant_on hrun
    (Inv.initial hserver) fun _ _ _ _ hnext hinv => Inv.moves hinv (next_moves hnext)
  obtain ⟨actions, hactions⟩ := hclient b.calls List.prefix_rfl
  exact ⟨hlinked, ⟨ready, past, server, hserver, hpast⟩, actions, transport, start, startupWait,
    fuel, e, reg, world, hclock, hstarted, hreg, hactions⟩

/-- In every run only a connection that waits writes a keepalive. -/
theorem Reaches.notified {events : List BridgeEvent} (h : Reaches config events b) :
    Notified config b := by
  obtain ⟨transport, start, startupWait, fuel, e, reg, ready, server, world, hclock, hstarted,
    hreg, hserver, hrun⟩ := h
  exact (Machine.exec_invariant_on hrun (Inv.initial hserver) fun _ _ _ _ hnext hinv =>
    Inv.moves hinv (next_moves hnext)).notified

/-- **Connections and invocations belong together.**  In every interleaving of the connections,
    the invocations, the scanner and the clocks, each side of the bridge runs by its own rules:
    what holds of every run of the server, and of every run of the client, holds of both at
    once.  The connections that wait and the invocations that are under way are one to one, with
    the same callback and the same session. -/
theorem linked {config : BridgeConfig Url Origin} {events : List BridgeEvent} {b : Bridge Url}
    (h : Reaches config events b) :
    (∃ ready past, Server.Reaches config.server (policy config) ready past b.server) ∧
    (∃ actions, ScannerClient.Reaches config.client (taskOf b.calls) actions b.life) ∧
    (∀ n stage session, b.server.awaited n = some (stage, session) → ∃ i call,
      b.calls[i]? = some call ∧ call.connection = n ∧ call.stage = stage ∧
      call.session = session ∧ (b.life.invocation i).isActive = true ∧
      ∀ j call', b.calls[j]? = some call' → call'.connection = n →
        (b.life.invocation j).isActive = true → j = i) ∧
    ∀ i, (b.life.invocation i).isActive = true → ∃ call, b.calls[i]? = some call ∧
      b.server.awaited call.connection = some (call.stage, call.session) := by
  obtain ⟨hlinked, hserver, hclient⟩ := h.sides
  refine ⟨hserver, hclient, fun n stage session hawaited => ?_, fun i hactive => ?_⟩
  · have hheld : b.future n ≠ none := hlinked.held n (by rw [hawaited]; exact Option.some_ne_none _)
    obtain ⟨i, hfuture⟩ := Option.ne_none_iff_exists'.mp hheld
    obtain ⟨call, hcall, hn, hsame, hactive⟩ := hlinked.waits n i hfuture
    obtain ⟨hstage, hsession⟩ := Prod.mk.inj (Option.some.inj (hsame.symm.trans hawaited))
    refine ⟨i, call, hcall, hn, hstage, hsession, hactive, fun j call' hcall' hn' hactive' => ?_⟩
    obtain ⟨call'', hcall'', hfuture'⟩ := hlinked.active j hactive'
    obtain rfl := Option.some.inj (hcall'.symm.trans hcall'')
    rw [hn', hfuture] at hfuture'
    exact (Option.some.inj hfuture').symm
  · obtain ⟨call, hcall, hfuture⟩ := hlinked.active i hactive
    obtain ⟨call', hcall', -, hawaited, -⟩ := hlinked.waits _ i hfuture
    obtain rfl := Option.some.inj (hcall.symm.trans hcall')
    exact ⟨call, hcall, hawaited⟩

/-- A bridge for one connection. -/
def sampleConfig : BridgeConfig Str Str where
  server := Server.sampleConfig
  client := ScannerClient.sampleClient

/-- The bridge after its startup and the events. -/
def sampleBridge (events : List BridgeEvent) : Option (Bridge Str) := do
  let e ← sampleConfig.client.withOptions (.ok ()) 0 1000 ScannerClient.sampleWorld 1001
  let reg ← e.result.toOption
  let server ← (Server.start sampleConfig.server true).toOption
  Machine.exec (next sampleConfig) (started server e.log reg) events

/-- A result with a value is that value. -/
theorem toOption_eq_some {α : Type} {result : Result α} {a : α} (h : result.toOption = some a) :
    result = .ok a := by
  cases result with
  | ok b =>
    obtain rfl := Option.some.inj h
    rfl
  | error e => cases h

/-- The sample is a run. -/
theorem sampleBridge_reaches {events : List BridgeEvent} {b : Bridge Str}
    (h : sampleBridge events = some b) : Reaches sampleConfig events b := by
  unfold sampleBridge at h
  obtain ⟨e, hstarted, h⟩ := Option.bind_eq_some_iff.mp h
  obtain ⟨reg, hreg, h⟩ := Option.bind_eq_some_iff.mp h
  obtain ⟨server, hserver, hrun⟩ := Option.bind_eq_some_iff.mp h
  exact ⟨.ok (), 0, 1000, 1001, e, reg, true, server, ScannerClient.sampleWorld,
    fun s => Nat.le_add_right s.resumed 20, hstarted, toOption_eq_some hreg,
    toOption_eq_some hserver, hrun⟩

/-- An event of the server in the sample. -/
def sampleServes (event : ServerEvent) : BridgeEvent := .server event 100 (ascii "7")

/-- A frame that is answered in the sample. -/
def sampleFrame (frame : Frame) : List BridgeEvent :=
  [sampleServes (.connection 0 (.frame frame)), sampleServes (.connection 0 (.write .done))]

/-- A connection arrives with a message, and evaluates its end. -/
def sampleEvents : List BridgeEvent :=
  sampleServes .accept :: [Sample.offer, Sample.connect, Sample.mail, Sample.rcpt "<b>",
    Sample.data, Sample.endHeaders].flatMap sampleFrame ++
    [sampleServes (.connection 0 (.frame Sample.endMessage))]

/-- The connection of the sample waits. -/
theorem sampleEvents_awaited :
    (sampleBridge sampleEvents).map (fun b => (b.server.awaited 0).isSome) = some true := by
  decide +kernel

/-- Its invocation is under way. -/
theorem linked_at_end : ∃ b, Reaches sampleConfig sampleEvents b ∧
    ∃ i call, b.calls[i]? = some call ∧ call.connection = 0 ∧
      (b.life.invocation i).isActive = true := by
  obtain ⟨b, hb, hawaited⟩ := Option.map_eq_some_iff.mp sampleEvents_awaited
  have hreaches := sampleBridge_reaches hb
  obtain ⟨⟨stage, session⟩, hawaited⟩ := Option.isSome_iff_exists.mp hawaited
  obtain ⟨i, call, hcall, hn, -, -, hactive, -⟩ :=
    (linked hreaches).2.2.1 0 stage session hawaited
  exact ⟨b, hreaches, i, call, hcall, hn, hactive⟩

end Bridge

end MtaHooks
