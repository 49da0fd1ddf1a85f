import MtaHooks.Bridge.Program

namespace MtaHooks

open Hooks
open ScannerClient (Life Task Current)

/-!
# The places of `main`

`main` stops the server and ends the registration; no event of the bridge does either by itself.
So what holds at each of its places is kept by everything that runs beside it, and the steps of
`main` lead from one place to the next.  The invariant speaks of the run so far as well: of the
cause that has ended the wait, and of the point at which the registration was ended.

* `Program.Stands` — what holds at each place of `main`;
* `Program.Inv` — what holds in every run;
* `Program.Reaches.inv` — and it does.
-/

/-! ### What is sent before the end -/

namespace Hooks

/-- The entry is the end of a registration. -/
def Entry.isDelete {Url : Type} : Entry Url → Bool
  | .sent request => request.method = .delete
  | .confirmed _ _ => false

namespace ScannerClient

variable {Url Origin : Type} {c : ScannerClient Url Origin} {tasks : ℕ → Task} {s t : Life Url}

/-- How many registrations have been ended. -/
def deletions (log : List (Entry Url)) : ℕ := log.countP Entry.isDelete

/-- An entry that ends no registration counts for nothing. -/
theorem deletions_cons {log : List (Entry Url)} {entry : Entry Url}
    (hentry : entry.isDelete = false) : deletions (entry :: log) = deletions log :=
  List.countP_cons_of_neg (by simp [hentry])

/-- A request about a callback ends no registration. -/
theorem project_deletions (s : Life Url) (i : ℕ) (reg : Shared Url) (timestamp : Str)
    (x : Spent) : deletions (s.project c tasks i reg timestamp x).log = deletions s.log := by
  unfold Life.project
  split
  · rfl
  · exact deletions_cons rfl

/-- The end of the program ends one registration at most. -/
theorem farewell_deletions (life : Life Url) :
    deletions (life.farewell c) ≤ deletions life.log + 1 := by
  unfold Life.farewell
  split
  · omega
  · split
    · omega
    · split_ifs
      · exact List.countP_cons_of_pos rfl |>.le
      · omega

variable [DecidableEq Origin]

/-- Only `deregister` ends a registration. -/
theorem Moves.deletions {a : Action} (hmoves : Moves c tasks s a t) (ha : a ≠ .deregister) :
    deletions t.log = deletions s.log := by
  cases hmoves with
  | found hphase hlock hreg hfresh timestamp => exact project_deletions _ _ _ _ _
  | confirms hphase hregister timestamp =>
    exact (project_deletions _ _ _ _ _).trans (deletions_cons rfl)
  | renews hphase hlock hstale timestamp => exact deletions_cons rfl
  | resumes hphase => exact deletions_cons rfl
  | deregisters hlock hreg hurl henabled => exact absurd rfl ha
  | _ => rfl

end ScannerClient

end Hooks

/-! ### The flags of the server -/

namespace Server

variable {config : ServerConfig} {policy : Policy} {s t : Server} {past : List ServerEvent}

/-- Only the stop token stops the server. -/
theorem Moves.stop_eq {event : ServerEvent} (h : Moves config policy s event t)
    (hevent : event ≠ .cancel) : t.stop = s.stop := by
  cases h with
  | cancel => exact absurd rfl hevent
  | _ => rfl

/-- A server that is over stays so. -/
theorem Moves.over {event : ServerEvent} (h : Moves config policy s event t)
    (hover : s.serving = .returned ∨ s.serving = .failed) : t.serving = s.serving := by
  have hgoing : ∀ {stage}, s.serving = stage → stage ≠ .returned → stage ≠ .failed → False := by
    rintro stage rfl hreturned hfailed
    exact hover.elim hreturned hfailed
  cases h with
  | fail hserving =>
    rcases hserving with hserving | hserving | hserving
    · exact (hgoing hserving (by decide) (by decide)).elim
    · exact (hgoing hserving (by decide) (by decide)).elim
    · exact (hgoing hserving (by decide) (by decide)).elim
  | leave hserving hstop => exact (hgoing hserving (by decide) (by decide)).elim
  | drained hserving hidle => exact (hgoing hserving (by decide) (by decide)).elim
  | deadline hserving hidle => exact (hgoing hserving (by decide) (by decide)).elim
  | joined hserving hidle => exact (hgoing hserving (by decide) (by decide)).elim
  | _ => rfl

/-- A server that accepts has accepted before, and shows the same; only its ready flag can be
    cleared from outside. -/
theorem Moves.accepting {event : ServerEvent} (h : Moves config policy s event t)
    (hinv : Inv config policy s past) (haccepting : t.serving = .accepting) :
    s.serving = .accepting ∧ t.stats.listener = s.stats.listener ∧
      (event ≠ .unready → t.stats.ready = s.stats.ready) := by
  cases h with
  | goes hlive hpossible hdriver hcount hphase =>
    have hfront := count_front hinv hlive hpossible hdriver hcount
    exact ⟨haccepting, hfront.listener, fun _ => hfront.ready⟩
  | returns hlive hpossible hdriver hcount hphase hreturned =>
    have hfront := (count_front hinv hlive hpossible hdriver hcount).trans hreturned.front
    exact ⟨haccepting, hfront.listener, fun _ => hfront.ready⟩
  | crash hlive hevaluating hdropped =>
    exact ⟨haccepting, hdropped.front.listener, fun _ => hdropped.front.ready⟩
  | abort hlive hserving hdropped =>
    exact ⟨haccepting, hdropped.front.listener, fun _ => hdropped.front.ready⟩
  | unready => exact ⟨haccepting, rfl, fun hne => absurd rfl hne⟩
  | fail hserving => cases haccepting
  | leave hserving hstop => cases haccepting
  | drained hserving hidle => cases haccepting
  | deadline hserving hidle => cases haccepting
  | joined hserving hidle => cases haccepting
  | _ => exact ⟨haccepting, rfl, fun _ => rfl⟩

/-- No event sets the ready flag. -/
theorem Moves.unready_stays {event : ServerEvent} (h : Moves config policy s event t)
    (hinv : Inv config policy s past) (hstaged : Staged s) (hs : s.stats.ready = false) :
    t.stats.ready = false := by
  by_cases haccepting : t.serving = .accepting
  · by_cases hevent : event = .unready
    · subst hevent
      cases h with
      | unready => rfl
    · exact ((h.accepting hinv haccepting).2.2 hevent).trans hs
  · exact ((hstaged.moves hinv h).listening haccepting).2

/-- The gauge of the listener shows a server that accepts, and no other. -/
theorem Reaches.listener {ready : Bool} {events : List ServerEvent}
    (h : Reaches config policy ready events s) :
    s.stats.listener ≠ 0 ↔ s.serving = .accepting := by
  constructor
  · intro hshown
    by_contra hserving
    exact hshown (h.staged.listening hserving).1
  · obtain ⟨s₀, hstart, hrun⟩ := h
    have hinitial : Inv config policy s₀ [] ∧
        (s₀.serving = .accepting → s₀.stats.listener ≠ 0) := by
      refine ⟨.initial hstart, fun _ => ?_⟩
      obtain ⟨-, rfl⟩ := start_ok hstart
      show config.listener.id ≠ 0
      cases config.listener <;> decide
    refine (Machine.exec_invariant_history (P := fun s past => Inv config policy s past ∧
      (s.serving = .accepting → s.stats.listener ≠ 0)) hrun hinitial ?_).2
    intro s t event past hnext ⟨hinv, hlistener⟩
    refine ⟨hinv.moves (next_moves hnext), fun haccepting => ?_⟩
    obtain ⟨hbefore, hsame, -⟩ := (next_moves hnext).accepting hinv haccepting
    rw [hsame]
    exact hlistener hbefore

end Server

/-! ### What the bridge does by itself -/

namespace Bridge

variable {Url Origin : Type} [DecidableEq Origin] {config : BridgeConfig Url Origin}
  {b t : Bridge Url} {event : BridgeEvent}

/-- What an event of the bridge does to the server; only `main` stops it, and only `main` clears
    its ready flag from outside. -/
theorem Moves.server (h : Moves config b event t) (hevent : event.ofMain = false) :
    t.server = b.server ∨ ∃ e, b.serve config e = some t.server ∧ e ≠ .cancel ∧ e ≠ .unready := by
  have hother : ∀ {e now requestId}, (BridgeEvent.server e now requestId).ofMain = false →
      e ≠ .cancel ∧ e ≠ .unready := by
    intro e now requestId hmain
    refine ⟨?_, ?_⟩ <;> rintro rfl <;> cases hmain
  have hpolicy : ∀ n result, ServerEvent.ofPolicy n result ≠ .cancel ∧
      ServerEvent.ofPolicy n result ≠ .unready := by
    intro n result
    have htarget := (Server.ofPolicy_target n result).1
    refine ⟨?_, ?_⟩ <;> intro heq <;> rw [heq] at htarget <;> cases htarget
  cases h with
  | serves hpolicy hpermits hserver hsame now requestId => exact .inr ⟨_, hserver, hother hevent⟩
  | begins hpolicy hpermits hserver htarget hbefore hafter hlife =>
    exact .inr ⟨_, hserver, hother hevent⟩
  | cancels hpolicy hpermits hserver htarget hafter hfuture hlife now requestId =>
    exact .inr ⟨_, hserver, hother hevent⟩
  | notifies hinterval hawaited hquiet => exact .inl rfl
  | works hi hpolled hlife hgoing => exact .inl rfl
  | finishes hi hpolled hlife hfinished hcall hserver => exact .inr ⟨_, hserver, hpolicy _ _⟩
  | expires hpolled hlife hcall hserver => exact .inr ⟨_, hserver, hpolicy _ _⟩
  | deregisters hserving hlife => exact .inl rfl

/-- What an event of the bridge does to the client; only `main` deregisters it. -/
theorem Moves.life (h : Moves config b event t) (hevent : event.ofMain = false) :
    t.life = b.life ∨
      ∃ calls action, b.work config calls action = some t.life ∧ action ≠ .deregister := by
  cases h with
  | serves hpolicy hpermits hserver hsame now requestId => exact .inl rfl
  | begins hpolicy hpermits hserver htarget hbefore hafter hlife =>
    exact .inr ⟨_, _, hlife, by simp⟩
  | cancels hpolicy hpermits hserver htarget hafter hfuture hlife now requestId =>
    exact .inr ⟨_, _, hlife, by simp⟩
  | notifies hinterval hawaited hquiet => exact .inl rfl
  | works hi hpolled hlife hgoing =>
    refine .inr ⟨_, _, hlife, ?_⟩
    rintro rfl
    cases hi
  | finishes hi hpolled hlife hfinished hcall hserver =>
    refine .inr ⟨_, _, hlife, ?_⟩
    rintro rfl
    cases hi
  | expires hpolled hlife hcall hserver => exact .inr ⟨_, _, hlife, by simp⟩
  | deregisters hserving hlife => cases hevent

/-- Only `main` stops the server. -/
theorem Moves.stop_eq (h : Moves config b event t) (hevent : event.ofMain = false) :
    t.server.stop = b.server.stop := by
  rcases h.server hevent with hsame | ⟨e, hserve, hne, -⟩
  · rw [hsame]
  · exact (Server.next_moves hserve).stop_eq hne

/-- Only `main` ends a registration. -/
theorem Moves.deletions (h : Moves config b event t) (hevent : event.ofMain = false) :
    ScannerClient.deletions t.life.log = ScannerClient.deletions b.life.log := by
  rcases h.life hevent with hsame | ⟨calls, action, hlife, hne⟩
  · rw [hsame]
  · exact (ScannerClient.next_moves hlife).deletions hne

/-- `serve` is over in two ways. -/
theorem finished_iff :
    b.finished = true ↔ b.server.serving = .returned ∨ b.server.serving = .failed := by
  simp [finished]

/-- Once `serve` is over it stays so. -/
theorem Moves.over (h : Moves config b event t) (hevent : event.ofMain = false)
    (hover : b.finished = true) : t.server.serving = b.server.serving := by
  rcases h.server hevent with hsame | ⟨e, hserve, -⟩
  · rw [hsame]
  · exact (Server.next_moves hserve).over (finished_iff.mp hover)

/-- The ready flag goes down with the accept loop, and stays down. -/
theorem Moves.ready (h : Moves config b event t) (hevent : event.ofMain = false) {ready : Bool}
    {past : List ServerEvent}
    (hserver : Server.Reaches config.server (policy config) ready past b.server) :
    (t.server.serving = .accepting →
      b.server.serving = .accepting ∧ t.server.stats.ready = b.server.stats.ready) ∧
    (b.server.stats.ready = false → t.server.stats.ready = false) := by
  rcases h.server hevent with hsame | ⟨e, hserve, -, hne⟩
  · rw [hsame]
    exact ⟨fun haccepting => ⟨haccepting, rfl⟩, id⟩
  · have hmoves := Server.next_moves hserve
    refine ⟨fun haccepting => ?_, hmoves.unready_stays hserver.inv hserver.staged⟩
    obtain ⟨hbefore, -, hready⟩ := hmoves.accepting hserver.inv haccepting
    exact ⟨hbefore, hready hne⟩

/-- The ready flag is cleared, and nothing else. -/
theorem next_unready {now : ℕ} {requestId : Str}
    (h : b.next config (.server .unready now requestId) = some t) :
    t = { b with server := { b.server with stats := { b.server.stats with ready := false } } } := by
  cases next_moves h with
  | serves hpolicy hpermits hserver hsame =>
    cases Server.next_moves hserver with
    | unready => rfl
  | begins hpolicy hpermits hserver htarget hbefore hafter hlife => cases htarget
  | cancels hpolicy hpermits hserver htarget hafter hfuture hlife => cases htarget

/-- The stop token is cancelled, and nothing else. -/
theorem next_cancel {now : ℕ} {requestId : Str}
    (h : b.next config (.server .cancel now requestId) = some t) :
    t = { b with server := { b.server with stop := true } } := by
  cases next_moves h with
  | serves hpolicy hpermits hserver hsame =>
    cases Server.next_moves hserver with
    | cancel => rfl
  | begins hpolicy hpermits hserver htarget hbefore hafter hlife => cases htarget
  | cancels hpolicy hpermits hserver htarget hafter hfuture hlife => cases htarget

/-- Nothing is sent once `serve` has returned and the registration is released. -/
theorem Linked.rests (h : b.Linked) (hmoves : Moves config b event t)
    (hserving : b.server.serving = .returned) (hidle : b.server.idle = true)
    (hreleased : b.life.registration = none) :
    t.life.registration = none ∧ t.life.log = b.life.log := by
  have hclosed : Closed config.client b.life b := ⟨h, hserving, hidle, .inl ⟨rfl, rfl⟩⟩
  rcases (hclosed.moves hmoves).log with ⟨hsame, hlog⟩ | ⟨hnone, hlog | ⟨reg, url, hreg, -⟩⟩
  · exact ⟨hsame.trans hreleased, hlog⟩
  · exact ⟨hnone, hlog⟩
  · cases hreleased.symm.trans hreg

end Bridge

/-! ### The places of `main` -/

namespace Program

variable {Url Origin : Type} [DecidableEq Origin] {config : ProgramConfig Url Origin}
  {b t : Bridge Url} {p q : Program Url} {cause : Cause} {past : List ProgramEvent}

open ScannerClient (deletions)

/-- A run goes on by one step. -/
theorem Reaches.snoc {event : ProgramEvent} (h : Reaches config past p)
    (hnext : next config p event = some q) : Reaches config (past ++ [event]) q := by
  obtain ⟨sockets, files, transport, start, startupWait, fuel, p₀, log, world, hclock, hboot,
    hrun⟩ := h
  exact ⟨sockets, files, transport, start, startupWait, fuel, p₀, log, world, hclock, hboot,
    Machine.exec_snoc hrun hnext⟩

/-- The bridge is told to stop; a milter server that ended the wait has failed. -/
structure Stopped (b : Bridge Url) (cause : Cause) : Prop where
  stop : b.server.stop = true
  cause : cause = .milter → b.server.serving = .failed

/-- The run has passed the deregistration.  It ended the registration that was cached then, the
    first one to be ended, and nothing has been sent since. -/
def Parted (config : ProgramConfig Url Origin) (past : List ProgramEvent) (p : Program Url) :
    Prop :=
  ∃ before after q cause, past = before ++ .deregister :: after ∧ Reaches config before q ∧
    q.place = .releasing cause ∧
    Machine.exec (next config) q (.deregister :: after) = some p ∧
    deletions q.bridge.life.log = 0 ∧
    p.bridge.life.log = q.bridge.life.farewell config.client

/-- The registration has been ended; if `serve` has returned, for good. -/
structure Released (config : ProgramConfig Url Origin) (past : List ProgramEvent)
    (p : Program Url) : Prop where
  finished : p.bridge.finished = true
  once : deletions p.bridge.life.log ≤ 1
  parted : p.bridge.server.serving = .returned →
    p.bridge.life.registration = none ∧ Parted config past p

/-- What holds at each place. -/
def Stands (config : ProgramConfig Url Origin) (past : List ProgramEvent) (p : Program Url) :
    Prop :=
  match p.place with
  | .waiting => p.bridge.server.stop = false ∧ deletions p.bridge.life.log = 0
  | .clearing cause =>
    p.bridge.server.stop = false ∧ deletions p.bridge.life.log = 0 ∧
      (cause = .milter → p.bridge.server.serving = .failed)
  | .stopping cause | .joining cause =>
    Stopped p.bridge cause ∧ deletions p.bridge.life.log = 0
  | .releasing cause =>
    Stopped p.bridge cause ∧ deletions p.bridge.life.log = 0 ∧ p.bridge.finished = true
  | .closing cause => Stopped p.bridge cause ∧ Released config past p
  | .exited result =>
    result = .error .milter ∧ p.bridge.server.stop = true ∧
        p.bridge.server.serving = .failed ∧ deletions p.bridge.life.log = 0 ∨
      ∃ cause, result = cause.result ∧ Stopped p.bridge cause ∧ Released config past p

/-- The ready flag, between the two stores of `main`. -/
structure Flagged (p : Program Url) : Prop where
  set : p.place = .waiting → p.bridge.server.serving = .accepting →
    p.bridge.server.stats.ready = true
  cleared : p.place ≠ .waiting → p.bridge.server.stats.ready = false

/-- After the wait the flag is clear. -/
theorem Flagged.of_cleared (hplace : p.place ≠ .waiting)
    (hready : p.bridge.server.stats.ready = false) : Flagged p where
  set hwaiting := absurd hwaiting hplace
  cleared _ := hready

/-- The wait was ended by the cause that `main` remembers. -/
def Told (past : List ProgramEvent) : Place → Prop
  | .waiting => True
  | .clearing cause | .stopping cause | .joining cause | .releasing cause | .closing cause =>
    .stop cause ∈ past
  | .exited result =>
    ∃ cause, .stop cause ∈ past ∧ (result = cause.result ∨ result = .error .milter)

/-- What holds in every run. -/
structure Inv (config : ProgramConfig Url Origin) (past : List ProgramEvent) (p : Program Url) :
    Prop where
  run : Reaches config past p
  bridge : ∃ events, Bridge.Reaches config.toBridgeConfig events p.bridge
  server : ∃ events, Server.Reaches config.server (Bridge.policy config.toBridgeConfig) true
    events p.bridge.server
  stands : Stands config past p
  flagged : Flagged p
  /-- Before `serve` has begun nothing can have ended it. -/
  fresh : p.begun = false → p.bridge.server.serving = .accepting
  told : Told past p.place

/-! #### The bridge goes on -/

/-- A bridge that is told to stop stays so. -/
theorem Stopped.moves {event : BridgeEvent} (h : Stopped b cause)
    (hmoves : Bridge.Moves config.toBridgeConfig b event t) (hevent : event.ofMain = false) :
    Stopped t cause := by
  refine ⟨(hmoves.stop_eq hevent).trans h.stop, fun hcause => ?_⟩
  have hfailed := h.cause hcause
  exact (hmoves.over hevent (Bridge.finished_iff.mpr (.inr hfailed))).trans hfailed

/-- A bridge whose `serve` is over stays so. -/
theorem finished_moves {event : BridgeEvent} (h : b.finished = true)
    (hmoves : Bridge.Moves config.toBridgeConfig b event t) (hevent : event.ofMain = false) :
    t.finished = true := by
  rw [Bridge.finished, hmoves.over hevent h]
  exact h

/-- A step that sends nothing leaves the deregistration behind. -/
theorem Parted.later {event : ProgramEvent} (h : Parted config past p)
    (hnext : next config p event = some q) (hlog : q.bridge.life.log = p.bridge.life.log) :
    Parted config (past ++ [event]) q := by
  obtain ⟨before, after, r, cause, rfl, hreaches, hplace, hrun, hundeleted, hfarewell⟩ := h
  refine ⟨before, after ++ [event], r, cause, by simp, hreaches, hplace, ?_, hundeleted,
    hlog.trans hfarewell⟩
  exact Machine.exec_snoc hrun hnext

/-- A step of `main` that leaves the bridge alone keeps the registration released. -/
theorem Released.later {event : ProgramEvent} (h : Released config past p)
    (hnext : next config p event = some q) (hbridge : q.bridge = p.bridge) :
    Released config (past ++ [event]) q := by
  obtain ⟨hfinished, honce, hparted⟩ := h
  rw [← hbridge] at hfinished honce hparted
  refine ⟨hfinished, honce, fun hreturned => ?_⟩
  obtain ⟨hnone, hparted⟩ := hparted hreturned
  exact ⟨hnone, hparted.later hnext (by rw [hbridge])⟩

/-- An event of the bridge keeps the registration released. -/
theorem Released.moves {event : BridgeEvent} (h : Released config past p)
    {events : List BridgeEvent}
    (hreaches : Bridge.Reaches config.toBridgeConfig events p.bridge)
    (hnext : next config p (.bridge event) = some q)
    (hmoves : Bridge.Moves config.toBridgeConfig p.bridge event q.bridge)
    (hevent : event.ofMain = false) : Released config (past ++ [.bridge event]) q := by
  refine ⟨finished_moves h.finished hmoves hevent, (hmoves.deletions hevent).trans_le h.once,
    fun hserving => ?_⟩
  have hreturned := (hmoves.over hevent h.finished).symm.trans hserving
  obtain ⟨hnone, hparted⟩ := h.parted hreturned
  obtain ⟨hlinked, ⟨ready, earlier, hserver⟩, -⟩ := hreaches.sides
  obtain ⟨hreleased, hsame⟩ :=
    hlinked.rests hmoves hreturned (hserver.staged.idle hreturned) hnone
  exact ⟨hreleased, hparted.later hnext hsame⟩

/-- An event of the bridge keeps what holds at the place of `main`. -/
theorem Stands.moves {event : BridgeEvent} (h : Stands config past p)
    (hplace : ∀ result, p.place ≠ .exited result) {events : List BridgeEvent}
    (hreaches : Bridge.Reaches config.toBridgeConfig events p.bridge)
    (hnext : next config p (.bridge event) = some q) (hsame : q.place = p.place)
    (hmoves : Bridge.Moves config.toBridgeConfig p.bridge event q.bridge)
    (hevent : event.ofMain = false) : Stands config (past ++ [.bridge event]) q := by
  have hdeletions := hmoves.deletions hevent
  have hstop := hmoves.stop_eq hevent
  unfold Stands at h ⊢
  rw [hsame]
  cases hp : p.place with
  | waiting =>
    rw [hp] at h
    exact ⟨hstop.trans h.1, hdeletions.trans h.2⟩
  | clearing cause =>
    rw [hp] at h
    obtain ⟨hgoing, hundeleted, hcause⟩ := h
    refine ⟨hstop.trans hgoing, hdeletions.trans hundeleted, fun hmilter => ?_⟩
    have hfailed := hcause hmilter
    exact (hmoves.over hevent (Bridge.finished_iff.mpr (.inr hfailed))).trans hfailed
  | stopping cause =>
    rw [hp] at h
    exact ⟨h.1.moves hmoves hevent, hdeletions.trans h.2⟩
  | joining cause =>
    rw [hp] at h
    exact ⟨h.1.moves hmoves hevent, hdeletions.trans h.2⟩
  | releasing cause =>
    rw [hp] at h
    exact ⟨h.1.moves hmoves hevent, hdeletions.trans h.2.1, finished_moves h.2.2 hmoves hevent⟩
  | closing cause =>
    rw [hp] at h
    exact ⟨h.1.moves hmoves hevent, h.2.moves hreaches hnext hmoves hevent⟩
  | exited result => exact absurd hp (hplace result)

/-- The cause stays the one that ended the wait. -/
theorem Told.later {place : Place} (h : Told past place) (event : ProgramEvent) :
    Told (past ++ [event]) place := by
  cases place with
  | waiting => trivial
  | exited result =>
    obtain ⟨cause, hmem, hresult⟩ := h
    exact ⟨cause, List.mem_append_left _ hmem, hresult⟩
  | _ => exact List.mem_append_left _ h

/-! #### Every step -/

/-- An event of the bridge is a run of the server. -/
theorem server_reaches {event : BridgeEvent} {events : List ServerEvent} (hlinked : b.Linked)
    (h : Server.Reaches config.server (Bridge.policy config.toBridgeConfig) true events b.server)
    (hmoves : Bridge.Moves config.toBridgeConfig b event t) :
    ∃ events, Server.Reaches config.server (Bridge.policy config.toBridgeConfig) true events
      t.server := by
  obtain ⟨s₀, hstart, hpast⟩ := h
  obtain ⟨⟨later, hlater⟩, -⟩ := hmoves.sides hlinked
  exact ⟨events ++ later, s₀, hstart, Machine.exec_append.mpr ⟨_, hpast, hlater⟩⟩

/-- **Each step** keeps what holds at the places of `main`. -/
theorem Inv.moves {event : ProgramEvent} (h : Inv config past p)
    (hnext : next config p event = some q) : Inv config (past ++ [event]) q := by
  obtain ⟨hrun, ⟨events, hreaches⟩, ⟨earlier, hserver⟩, hstands, hflagged, hfresh, htold⟩ := h
  have hlater := htold.later event
  have hbridge : ∀ {event b}, p.bridge.next config.toBridgeConfig event = some b →
      (∃ events, Bridge.Reaches config.toBridgeConfig events b) ∧
        ∃ events, Server.Reaches config.server (Bridge.policy config.toBridgeConfig) true events
          b.server := fun hb => ⟨⟨_, hreaches.snoc hb⟩,
    server_reaches hreaches.sides.1 hserver (Bridge.next_moves hb)⟩
  -- `main` goes on alone.
  have hstays : ∀ {place}, p.place ≠ .waiting → place ≠ .waiting →
      next config p event = some { p with place } →
      Stands config (past ++ [event]) { p with place } → Told (past ++ [event]) place →
      Inv config (past ++ [event]) { p with place } :=
    fun hplace hplace' hnext hstands htold => ⟨hrun.snoc hnext, ⟨events, hreaches⟩,
      ⟨earlier, hserver⟩, hstands, .of_cleared hplace' (hflagged.cleared hplace), hfresh, htold⟩
  unfold Stands at hstands
  cases next_moves hnext with
  | @bridge event b hplace hevent hbegun hb =>
    obtain ⟨hb', hs'⟩ := hbridge hb
    obtain ⟨haccepting, hunready⟩ := (Bridge.next_moves hb).ready hevent hserver
    refine ⟨hrun.snoc hnext, hb', hs', Stands.moves hstands hplace hreaches hnext rfl
      (Bridge.next_moves hb) hevent, ⟨fun hwaiting hserving => ?_, fun hne =>
        hunready (hflagged.cleared hne)⟩, fun hlate => ?_, hlater⟩
    · obtain ⟨hbefore, hsame⟩ := haccepting hserving
      exact hsame.trans (hflagged.set hwaiting hbefore)
    · cases hbegun.symm.trans hlate
  | begin hplace hbegun =>
    refine ⟨hrun.snoc hnext, ⟨events, hreaches⟩, ⟨earlier, hserver⟩, ?_,
      ⟨hflagged.set, hflagged.cleared⟩, nofun, hlater⟩
    unfold Stands
    dsimp only
    split at hstands
    · exact hstands
    · exact hstands
    · exact hstands
    · exact hstands
    · exact hstands
    · exact ⟨hstands.1, hstands.2.later hnext rfl⟩
    next result hexited => exact absurd hexited (hplace result)
  | @stop cause b hplace hcause hb =>
    rw [hplace] at hstands
    obtain ⟨hb', hs'⟩ := hbridge hb
    obtain rfl := Bridge.next_unready hb
    refine ⟨hrun.snoc hnext, hb', hs', ⟨hstands.1, hstands.2, fun hmilter => ?_⟩,
      .of_cleared Place.noConfusion rfl, hfresh,
      List.mem_append_right _ (List.mem_singleton_self _)⟩
    -- `serve` does not return before it is told to stop.
    rcases Bridge.finished_iff.mp (hcause hmilter) with hreturned | hfailed
    · have hstop := hserver.staged.stopped (.inr (.inr hreturned))
      rw [hstands.1] at hstop
      cases hstop
    · exact hfailed
  | @cancel cause b hplace hb =>
    rw [hplace] at hstands hlater
    have hready := hflagged.cleared (hplace.trans_ne Place.noConfusion)
    obtain ⟨hb', hs'⟩ := hbridge hb
    obtain rfl := Bridge.next_cancel hb
    exact ⟨hrun.snoc hnext, hb', hs', ⟨⟨rfl, hstands.2.2⟩, hstands.2.1⟩,
      .of_cleared Place.noConfusion hready, hfresh, hlater⟩
  | finished hplace hfinished =>
    rw [hplace] at hstands hlater
    exact hstays (hplace.trans_ne Place.noConfusion) Place.noConfusion hnext
      ⟨hstands.1, hstands.2, hfinished⟩ hlater
  | awaits hplace hfinished =>
    rw [hplace] at hstands hlater
    exact hstays (hplace.trans_ne Place.noConfusion) Place.noConfusion hnext hstands hlater
  | joins hplace hserving =>
    rw [hplace] at hstands hlater
    exact hstays (hplace.trans_ne Place.noConfusion) Place.noConfusion hnext
      ⟨hstands.1, hstands.2, Bridge.finished_iff.mpr (.inl hserving)⟩ hlater
  | fails hplace hserving =>
    rw [hplace] at hstands hlater
    exact hstays (hplace.trans_ne Place.noConfusion) Place.noConfusion hnext
      (.inl ⟨rfl, hstands.1.stop, hserving, hstands.2⟩) ⟨_, hlater, .inr rfl⟩
  | @deregister cause b hplace hb =>
    rw [hplace] at hstands hlater
    obtain ⟨hstopped, hundeleted, hfinished⟩ := hstands
    have hready := hflagged.cleared (hplace.trans_ne Place.noConfusion)
    obtain ⟨hb', hs'⟩ := hbridge hb
    cases Bridge.next_moves hb with
    | @deregisters life hserving hlife =>
      obtain ⟨hnone, hlog⟩ := ScannerClient.next_deregister hlife
      have honce := ScannerClient.farewell_deletions (c := config.client) p.bridge.life
      rw [hundeleted, ← hlog] at honce
      refine ⟨hrun.snoc hnext, hb', hs', ⟨⟨hstopped.stop, hstopped.cause⟩, hfinished, honce,
        fun _ => ⟨hnone, past, [], p, cause, rfl, hrun, hplace, ?_, hundeleted, hlog⟩⟩,
        .of_cleared Place.noConfusion hready, hfresh, hlater⟩
      exact Machine.exec_cons.mpr ⟨_, hnext, rfl⟩
  | @exit cause hplace =>
    rw [hplace] at hstands hlater
    exact hstays (hplace.trans_ne Place.noConfusion) Place.noConfusion hnext
      (.inr ⟨cause, rfl, hstands.1, hstands.2.later hnext rfl⟩) ⟨_, hlater, .inl rfl⟩

/-! #### Startup -/

/-- A program that has booted waits, with a client that has registered and a server that is ready.
    -/
theorem boot_ok {sockets : Bool} {files transport : Result Unit} {start startupWait fuel : ℕ}
    {world : ScannerClient.Startup Url → ScannerClient.Attempt} {log : List (Entry Url)}
    (h : boot config sockets files transport start startupWait world fuel = some (.ok p, log)) :
    ∃ e reg server, config.client.withOptions transport start startupWait world fuel = some e ∧
      e.result = .ok reg ∧ Server.start config.server true = .ok server ∧
      p = { place := .waiting, begun := false, bridge := .started server e.log reg } := by
  unfold boot at h
  split at h
  next => cases Option.some.inj h
  next => cases Option.some.inj h
  next =>
    obtain ⟨e, hstarted, h⟩ := Option.bind_eq_some_iff.mp h
    split at h
    next => cases Option.some.inj h
    next reg hreg =>
      obtain ⟨server, hserver, h⟩ := Option.bind_eq_some_iff.mp h
      obtain ⟨hp, -⟩ := Prod.mk.inj (Option.some.inj h)
      exact ⟨e, reg, server, hstarted, hreg, Bridge.toOption_eq_some hserver,
        (Except.ok.inj hp).symm⟩

/-- **What holds at the places of `main`** holds in every run. -/
theorem Reaches.inv {events : List ProgramEvent} (h : Reaches config events p) :
    Inv config events p := by
  obtain ⟨sockets, files, transport, start, startupWait, fuel, p₀, log, world, hclock, hboot,
    hrun⟩ := h
  have hinitial : Reaches config [] p₀ :=
    ⟨sockets, files, transport, start, startupWait, fuel, p₀, log, world, hclock, hboot, rfl⟩
  obtain ⟨e, reg, server, hstarted, hreg, hserver, rfl⟩ := boot_ok hboot
  have hbounded := ScannerClient.withOptions_bounded hclock hstarted
  have hundeleted : deletions e.log = 0 := by
    refine List.countP_eq_zero.mpr fun entry hentry => ?_
    rcases hbounded.sent entry hentry with rfl | ⟨now, reg', rfl, -⟩
    · exact Bool.false_ne_true
    · exact Bool.false_ne_true
  have hstart : Inv config [] ⟨.waiting, false, .started server e.log reg⟩ := by
    refine ⟨hinitial, ⟨[], transport, start, startupWait, fuel, e, reg, true, server, world, hclock,
      hstarted, hreg, hserver, rfl⟩, ⟨[], server, hserver, rfl⟩, ?_, ?_, fun _ => ?_, trivial⟩
    · obtain ⟨-, rfl⟩ := Server.start_ok hserver
      exact ⟨rfl, hundeleted⟩
    · obtain ⟨-, rfl⟩ := Server.start_ok hserver
      exact ⟨fun _ _ => rfl, fun hne => absurd rfl hne⟩
    · obtain ⟨-, rfl⟩ := Server.start_ok hserver
      rfl
  refine Machine.exec_invariant_history (P := fun p past => Inv config past p) hrun hstart ?_
  intro p q event past hnext hp
  exact hp.moves hnext

end Program

end MtaHooks
