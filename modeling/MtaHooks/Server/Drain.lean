import MtaHooks.Server.Interleaving
import MtaHooks.Server.Framing

namespace MtaHooks

open FallibleState

/-!
# Stopping the server

What `serve` has done when it returns, in every interleaving.

* `Driver.Answered` — a connection that waits for a frame, writes, or has closed without an
  error owes no decision;
* `Server.Staged` — the listener, the drain counters and the fates of the tasks by the place
  `serve` has reached;
* `drained_clean` — the main result about a server that has returned;
* `drain_completes` — from every state on, a server that is stopped can return.
-/

/-! ### Callbacks in flight -/

namespace Driver

/-- Callbacks are awaited only while they are evaluated, or after an error. -/
def Answered (d : Driver) : Prop :=
  d.session.pending = none ∨ d.evaluating = true ∨ ∃ e, d.phase = .ended (.error e)

/-- After a decision nothing is pending. -/
theorem settle_pending (stage : Stage) (v : Verdict) (s : Session) :
    (Session.settle stage v s).pending = none := by
  unfold Session.settle
  repeat' split
  all_goals rfl

/-- After an accepted decision nothing is pending. -/
theorem complete_pending {d : Decision} {s t : Session} {frames : List Frame}
    (h : Session.complete d s = (.ok frames, t)) : t.pending = none := by
  obtain ⟨stage, hcompletes⟩ := Session.complete_ok h
  rw [hcompletes.settled]
  exact settle_pending stage d.verdict s

/-- After the reply nothing is pending. -/
theorem resolve_pending {failOpen : Bool} {outcome : Result Decision} {s t : Session}
    {frames : List Frame} (h : resolve failOpen outcome s = (.ok frames, t)) :
    t.pending = none := by
  unfold resolve at h
  split at h
  next => exact complete_pending h
  next decision =>
    split at h
    next frames' t' hcomplete =>
      obtain ⟨-, rfl⟩ := Prod.mk.inj h
      exact complete_pending hcomplete
    next => exact complete_pending h

/-- A connection that composes its reply is answered. -/
theorem conclude_answered (failOpen : Bool) (d : Driver) (frames : List Frame) (close : Bool)
    (outcome : Result Decision) : Answered (d.conclude failOpen frames close outcome) := by
  unfold conclude
  split
  next replies s hresolve => exact .inl (resolve_pending hresolve)
  next e s hresolve => exact .inr (.inr ⟨e, rfl⟩)

/-- A frame without a callback leaves no callback. -/
theorem accepts_pending {s t : Session} {c : Command} {step : Step}
    (h : Session.Accepts s c step t) (hpending : s.pending = none) (hevent : step.event = none) :
    t.pending = none := by
  cases h with
  | negotiate _ _ _ => exact hpending
  | macros _ _ => exact hpending
  | @perform _ u _ hperforms =>
    unfold Session.answer at hevent
    unfold Session.awaiting
    cases hr : Session.raised u.stages c.stage with
    | none => exact hperforms.pending hpending
    | some stage => simp [hr] at hevent

/-- A connection that takes a frame is answered, or evaluates its callback. -/
theorem handle_answered (config : Config) (policy : Policy) (d : Driver) (frame : Frame) :
    Answered (d.handle config policy frame) := by
  unfold handle
  rcases hr : Session.receive frame d.session with ⟨r, s⟩
  cases r with
  | error e => exact .inr (.inr ⟨e, rfl⟩)
  | ok step =>
    dsimp only
    split
    next hevent =>
      obtain ⟨c, -, hnone, -, haccepts⟩ := Session.receive_ok hr
      exact .inl (accepts_pending haccepts hnone hevent)
    next stage hevent =>
      split
      · exact .inr (.inl rfl)
      · exact conclude_answered _ _ _ _ _

/-- **Every callback is answered** before the next frame is read and before the connection
    closes without an error. -/
theorem Reaches.answered {config : Config} {policy : Policy} {events : List Event} {d : Driver}
    (h : Reaches config policy events d) : Answered d := by
  have hnew : Answered (new config policy) := .inl rfl
  refine Machine.exec_invariant_on h hnew fun d d' event _ hstep hd => ?_
  have hmoves := step_moves hstep
  cases hmoves with
  | @leave _ result hphase =>
    rcases hd with hnone | hbusy | ⟨e, he⟩
    · exact .inl hnone
    · simp [Driver.evaluating, hphase] at hbusy
    · rw [hphase] at he
      cases he
  | frame hphase hlimit => exact handle_answered config policy d _
  | decided hphase hevent => exact conclude_answered _ _ _ _ _
  | kept hphase hwrite =>
    refine .inr (.inl ?_)
    rw [Driver.evaluating, (writeFrame_some hwrite).2, hphase]
  | lost hphase hwrite => exact conclude_answered _ _ _ _ _
  | wrote hphase hwrite =>
    rcases hd with hnone | hbusy | ⟨e, he⟩
    · exact .inl ((writeFrame_some hwrite).1 ▸ hnone)
    · simp [Driver.evaluating, hphase] at hbusy
    · rw [hphase] at he
      cases he
  | broke hphase hwrite => exact .inr (.inr ⟨_, rfl⟩)

/-- A failed write has ended the connection with an error. -/
def Reported (d : Driver) : Prop := d.failed = true → ∃ e, d.phase = .ended (.error e)

/-- Without a lost keepalive every failed write is reported. -/
theorem Reaches.reported {config : Config} {policy : Policy} {events : List Event} {d : Driver}
    (h : Reaches config policy events d) (hkept : ∀ event ∈ events, ¬ LostKeepalive event) :
    Reported d := by
  have hnew : Reported (new config policy) := fun hf => absurd hf Bool.false_ne_true
  refine Machine.exec_invariant_on h hnew ?_
  intro d d' event hevent hstep hd hf
  -- A driver that moves has not ended, so it has not failed before.
  have hrunning : (∀ result, d.phase ≠ .ended result) → d.failed = false := by
    intro hphase
    by_contra hfailed
    obtain ⟨e, he⟩ := hd (by simpa using hfailed)
    exact hphase _ he
  have hmoves := step_moves hstep
  cases hmoves with
  | leave hphase =>
    rw [hrunning (by rw [hphase]; exact fun _ h => nomatch h)] at hf
    cases hf
  | frame hphase hlimit =>
    rw [(handle_stream config policy d _).2,
      hrunning (by rw [hphase]; exact fun _ h => nomatch h)] at hf
    cases hf
  | decided hphase hevent =>
    rw [(conclude_stream _ _ _ _ _).2, hrunning (by rw [hphase]; exact fun _ h => nomatch h)] at hf
    cases hf
  | kept hphase hwrite =>
    rcases writeFrame_stream hwrite with ⟨_, _, _, _, _, hf'⟩ | ⟨_, _, _, hr, _⟩
    · rw [hf', hrunning (by rw [hphase]; exact fun _ h => nomatch h)] at hf
      cases hf
    · cases hr
  | lost hphase hwrite => exact absurd (lost_of_error hwrite) (hkept _ hevent)
  | wrote hphase hwrite =>
    rcases writeFrame_stream hwrite with ⟨_, _, _, _, _, hf'⟩ | ⟨_, _, _, hr, _⟩
    · rw [show _ = _ from hf', hrunning (by rw [hphase]; exact fun _ h => nomatch h)] at hf
      cases hf
    · cases hr
  | broke hphase hwrite => exact ⟨_, rfl⟩

end Driver

/-! ### The stages of `serve` -/

namespace Server

open ServerEvent ConnectionTask

variable {config : ServerConfig} {policy : Policy} {s t : Server} {past : List ServerEvent}

/-- The listener, the drain counters and the tasks by the place `serve` has reached. -/
structure Staged (s : Server) : Prop where
  listening : s.serving ≠ .accepting → s.stats.listener = 0 ∧ s.stats.ready = false
  stopped : s.serving = .draining ∨ s.serving = .aborting ∨ s.serving = .returned → s.stop = true
  undrained : s.serving = .accepting ∨ s.serving = .draining →
    s.stats.drainGraceful = 0 ∧ s.stats.drainForced = 0
  forced : s.serving = .aborting → s.stats.drainGraceful = 0 ∧ s.stats.drainForced = 1
  idle : s.serving = .returned → s.idle = true
  counted : s.serving = .returned → s.stats.drainGraceful + s.stats.drainForced = 1
  unaborted : s.stats.drainForced = 0 → s.serving ≠ .failed → ∀ c ∈ s.tasks, c.fate ≠ .aborted

/-- A server is idle if no task runs. -/
theorem idle_iff : s.idle = true ↔ ∀ c ∈ s.tasks, c.fate ≠ .running := by
  simp [idle]

/-- A server that is not idle has a live connection. -/
theorem live_of_not_idle (h : s.idle = false) : ∃ n c, s.live n = some c := by
  have hsome : ¬ ∀ c ∈ s.tasks, c.fate ≠ .running := fun hall => by
    rw [idle_iff.mpr hall] at h
    cases h
  obtain ⟨c, hmem, hc⟩ : ∃ c ∈ s.tasks, c.fate = .running := by simpa using hsome
  obtain ⟨n, hn⟩ := List.getElem?_of_mem hmem
  exact ⟨n, c, live_some.mpr ⟨hn, hc⟩⟩

/-- A server with a live connection is not idle. -/
theorem not_idle_of_live {n : ℕ} {c : ConnectionTask} (h : s.live n = some c) :
    s.idle = false := by
  obtain ⟨hn, hc⟩ := live_some.mp h
  by_contra hidle
  exact idle_iff.mp (by simpa using hidle) c (List.mem_of_getElem? hn) hc

/-- A step of a running task: the accept loop stays where it is, and a task is aborted only
    when all are. -/
structure TaskStep (s t : Server) : Prop where
  busy : s.idle = false
  front : SameFront s.stats t.stats
  serving : t.serving = s.serving
  stop : t.stop = s.stop
  fates : ∀ c ∈ t.tasks, c.fate = .aborted →
    c ∈ s.tasks ∨ s.serving = .aborting ∨ s.serving = .failed

/-- An event of one task keeps the stages. -/
theorem Staged.task (h : Staged s) (hstep : TaskStep s t) : Staged t where
  listening hserving := by
    rw [hstep.front.listener, hstep.front.ready]
    exact h.listening (hstep.serving ▸ hserving)
  stopped hserving := hstep.stop.trans (h.stopped (hstep.serving ▸ hserving))
  undrained hserving := by
    rw [hstep.front.graceful, hstep.front.forced]
    exact h.undrained (hstep.serving ▸ hserving)
  forced hserving := by
    rw [hstep.front.graceful, hstep.front.forced]
    exact h.forced (hstep.serving ▸ hserving)
  idle hserving := nomatch hstep.busy.symm.trans (h.idle (hstep.serving ▸ hserving))
  counted hserving := nomatch hstep.busy.symm.trans (h.idle (hstep.serving ▸ hserving))
  unaborted hforced hserving c hc hfate := by
    rw [hstep.front.forced] at hforced
    rw [hstep.serving] at hserving
    rcases hstep.fates c hc hfate with hmem | haborting | hfailed
    · exact h.unaborted hforced hserving c hmem hfate
    · rw [(h.forced haborting).2] at hforced
      cases hforced
    · exact hserving hfailed

/-- The fates after a task is replaced. -/
theorem fates_set {n : ℕ} {c' : ConnectionTask} {p : Prop} (hfate : c'.fate = .aborted → p) :
    ∀ c ∈ s.tasks.set n c', c.fate = .aborted → c ∈ s.tasks ∨ p := by
  intro c hc haborted
  rcases List.mem_or_eq_of_mem_set hc with hmem | rfl
  · exact .inl hmem
  · exact .inr (hfate haborted)

/-- The counters of the accept loop are none of a connection's business. -/
theorem count_front (h : Inv config policy s past) {n : ℕ} {c : ConnectionTask} {event : Event}
    {d : Driver} {observation : Option Observation} {stats : Stats} (hlive : s.live n = some c)
    (hpossible : event.possible s.stop)
    (hdriver : Driver.step config.toConfig policy c.driver event = some d)
    (hcount : c.count policy s.clock event s.stats = .ok (observation, stats)) :
    SameFront s.stats stats := by
  obtain ⟨hn, hc⟩ := live_some.mp hlive
  obtain ⟨observation', stats', hcount', -, hfront, -⟩ :=
    h.metered.move h.pooled s.clock hn hc hpossible hdriver (ofConnection_snoc_self past n event)
      fun k hk => ofConnection_snoc_of_ne past event hk
  obtain ⟨rfl, rfl⟩ := Prod.mk.inj (Except.ok.inj (hcount.symm.trans hcount'))
  exact hfront

/-- **The stages are kept by every step.** -/
theorem Staged.moves {event : ServerEvent} (h : Staged s) (hinv : Inv config policy s past)
    (hm : Moves config policy s event t) : Staged t := by
  cases hm with
  | wait elapsed => exact ⟨h.1, h.2, h.3, h.4, h.5, h.6, h.7⟩
  | cancel => exact ⟨h.1, fun _ => rfl, h.3, h.4, h.5, h.6, h.7⟩
  | unready => exact ⟨fun hr => ⟨(h.1 hr).1, rfl⟩, h.2, h.3, h.4, h.5, h.6, h.7⟩
  | overload hserving hpermits => exact ⟨h.1, h.2, h.3, h.4, h.5, h.6, h.7⟩
  | take hserving hpermits =>
    refine ⟨h.1, h.2, h.3, h.4, fun hr => ?_, h.6, fun hforced hfailed c hc => ?_⟩
    · exact nomatch hserving.symm.trans hr
    · rcases List.mem_append.mp hc with hmem | hlast
      · exact h.unaborted hforced hfailed c hmem
      · obtain rfl := List.mem_singleton.mp hlast
        exact fun hf => nomatch hf
  | fail hserving =>
    refine ⟨fun _ => ⟨rfl, rfl⟩, ?_, ?_, fun hr => (nomatch hr), fun hr => (nomatch hr),
      fun hr => (nomatch hr), fun _ hr => absurd rfl hr⟩
    · rintro (hr | hr | hr) <;> cases hr
    · rintro (hr | hr) <;> cases hr
  | goes hlive hpossible hdriver hcount hphase =>
    have hfront := count_front hinv hlive hpossible hdriver hcount
    refine h.task ⟨not_idle_of_live hlive, hfront, rfl, rfl,
      fates_set fun hf => ?_⟩
    exact nomatch (live_some.mp hlive).2.symm.trans hf
  | @returns n event c d _ _ _ _ hlive hpossible hdriver hcount hphase hret =>
    refine h.task ⟨not_idle_of_live hlive, ?_, rfl, rfl, fates_set fun hf => nomatch hf⟩
    exact ((count_front hinv hlive hpossible hdriver hcount).trans hret.front).released n _
  | @crash n c stats hlive hevaluating hdropped =>
    exact h.task ⟨not_idle_of_live hlive, hdropped.front.released n _, rfl, rfl,
      fates_set fun hf => nomatch hf⟩
  | @abort n c stats hlive hserving hdropped =>
    exact h.task ⟨not_idle_of_live hlive, hdropped.front.released n _, rfl, rfl,
      fates_set fun _ => hserving⟩
  | leave hserving hstop =>
    refine ⟨fun _ => ⟨rfl, rfl⟩, fun _ => hstop, fun _ => h.undrained (.inl hserving),
      fun hr => (nomatch hr), fun hr => (nomatch hr), fun hr => (nomatch hr), fun hf _ => ?_⟩
    exact h.unaborted hf (by rw [hserving]; exact fun hr => nomatch hr)
  | drained hserving hidle =>
    obtain ⟨hgraceful, hforced⟩ := h.undrained (.inr hserving)
    refine ⟨fun _ => h.listening (by rw [hserving]; exact fun hr => nomatch hr),
      fun _ => h.stopped (.inl hserving), ?_, fun hr => (nomatch hr), fun _ => hidle, fun _ => ?_,
      fun hf _ => ?_⟩
    · rintro (hr | hr) <;> cases hr
    · show s.stats.drainGraceful + 1 + s.stats.drainForced = 1
      rw [hgraceful, hforced]
    · exact h.unaborted hf (by rw [hserving]; exact fun hr => nomatch hr)
  | deadline hserving hidle =>
    obtain ⟨hgraceful, hforced⟩ := h.undrained (.inr hserving)
    refine ⟨fun _ => h.listening (by rw [hserving]; exact fun hr => nomatch hr),
      fun _ => h.stopped (.inl hserving), ?_, fun _ => ⟨hgraceful, congrArg (· + 1) hforced⟩,
      fun hr => (nomatch hr), fun hr => (nomatch hr), fun hf => nomatch hf⟩
    rintro (hr | hr) <;> cases hr
  | joined hserving hidle =>
    obtain ⟨hgraceful, hforced⟩ := h.forced hserving
    refine ⟨fun _ => h.listening (by rw [hserving]; exact fun hr => nomatch hr),
      fun _ => h.stopped (.inr (.inl hserving)), ?_, fun hr => (nomatch hr), fun _ => hidle,
      fun _ => ?_, fun hf _ => ?_⟩
    · rintro (hr | hr) <;> cases hr
    · show s.stats.drainGraceful + s.stats.drainForced = 1
      rw [hgraceful, hforced]
    · rw [show s.stats.drainForced = 0 from hf] at hforced
      cases hforced

/-- **The stages hold in every run.** -/
theorem Reaches.staged {ready : Bool} {events : List ServerEvent}
    (h : Reaches config policy ready events s) : Staged s := by
  obtain ⟨s₀, hstart, hrun⟩ := h
  have hinitial : Inv config policy s₀ [] ∧ Staged s₀ := by
    refine ⟨.initial hstart, ?_⟩
    obtain ⟨-, rfl⟩ := start_ok hstart
    refine ⟨fun hr => absurd rfl hr, ?_, fun _ => ⟨rfl, rfl⟩, fun hr => (nomatch hr),
      fun hr => (nomatch hr), fun hr => (nomatch hr), fun _ _ c hc => (nomatch hc)⟩
    rintro (hr | hr | hr) <;> cases hr
  have hkeeps : ∀ s t event past, next config policy s event = some t →
      Inv config policy s past ∧ Staged s → Inv config policy t (past ++ [event]) ∧ Staged t :=
    fun s t event past hstep hs =>
      ⟨hs.1.moves (next_moves hstep), hs.2.moves hs.1 (next_moves hstep)⟩
  exact (Machine.exec_invariant_history (P := fun s past => Inv config policy s past ∧ Staged s)
    hrun hinitial hkeeps).2

/-! ### The main results -/

/-- An idle server has no tasks of a running kind. -/
theorem countP_of_idle {kind : ConnectionTask → Bool} (h : s.idle = true)
    (hkind : ∀ c, kind c = true → c.fate = .running) : s.tasks.countP kind = 0 := by
  rw [List.countP_eq_zero]
  intro c hc hk
  exact idle_iff.mp h c hc (hkind c hk)

/-- **A server that has returned has stopped cleanly.**  It was told to stop; no task runs,
    no observation is open, all permits are free, the listener is cleared, and exactly one
    drain is counted.  After a graceful drain every task has returned by itself, unless its
    policy panicked; and a connection that closed without an error owes no decision and, if
    none of its keepalives was lost, has written whole frames only. -/
theorem drained_clean {config : ServerConfig} {policy : Policy} {ready : Bool}
    {events : List ServerEvent} {s : Server} (h : Reaches config policy ready events s)
    (hreturned : s.serving = .returned) :
    (s.stop = true ∧ (∀ c ∈ s.tasks, c.fate ≠ .running) ∧ s.stats.active = 0 ∧
      s.stats.policy.active = 0 ∧ s.permits = config.maxConnections ∧ s.stats.listener = 0 ∧
      s.stats.ready = false ∧ s.stats.drainGraceful + s.stats.drainForced = 1) ∧
    (s.stats.drainGraceful = 1 → ∀ n c, s.tasks[n]? = some c →
      c.fate = .crashed ∨ c.fate = .returned ∧ ∃ result, c.driver.phase = .ended result ∧
        (result = .ok () → c.driver.session.pending = none ∧
          ((∀ event ∈ ofConnection events n, ¬ Driver.LostKeepalive event) →
            ∃ frames, Driver.Encodes frames c.driver.sent))) := by
  have hstaged := h.staged
  obtain ⟨hpooled, hmetered, -⟩ := h.inv
  have hidle := hstaged.idle hreturned
  have hrunning : s.tasks.countP isRunning = 0 :=
    countP_of_idle hidle fun c hc => of_decide_eq_true hc
  have hevaluating : s.tasks.countP isEvaluating = 0 :=
    countP_of_idle hidle fun c hc => of_decide_eq_true (Bool.and_eq_true_iff.mp hc).1
  obtain ⟨hlistener, hready⟩ := hstaged.listening (by rw [hreturned]; decide)
  obtain ⟨log, haccounts, -⟩ := hmetered.policy
  refine ⟨⟨hstaged.stopped (.inr (.inr hreturned)), idle_iff.mp hidle, ?_, ?_, ?_, hlistener,
    hready, hstaged.counted hreturned⟩, fun hgraceful n c hn => ?_⟩
  · rw [hmetered.active, hrunning]
  · rw [haccounts.active, hevaluating]
  · have hpermits := hpooled.permits
    rwa [hrunning, Nat.add_zero] at hpermits
  · have hcount := hstaged.counted hreturned
    have hmem := List.mem_of_getElem? hn
    cases hfate : c.fate with
    | running => exact absurd hfate (idle_iff.mp hidle c hmem)
    | aborted =>
      exact absurd hfate (hstaged.unaborted (by omega)
        (by rw [hreturned]; decide) c hmem)
    | crashed => exact .inl rfl
    | returned =>
      obtain ⟨result, hphase⟩ := (hpooled.settled c hmem).returned hfate
      have hrun : Driver.Reaches config.toConfig policy (ofConnection events n) c.driver :=
        hpooled.runs.ends n c.driver (by rw [List.getElem?_map, hn]; rfl)
      refine .inr ⟨rfl, result, hphase, fun hok => ⟨?_, fun hkept => ?_⟩⟩
      · rcases hrun.answered with hnone | hbusy | ⟨e, he⟩
        · exact hnone
        · simp [Driver.evaluating, hphase] at hbusy
        · rw [hphase, hok] at he
          cases he
      · refine (hrun.intact hkept).whole ?_
        by_contra hfailed
        obtain ⟨e, he⟩ := hrun.reported hkept (by simpa using hfailed)
        rw [hphase, hok] at he
        cases he

/-- The sample has drained. -/
theorem drained_clean_at_sample :
    sampleServer.stats.active = 0 ∧
      sampleServer.stats.drainGraceful + sampleServer.stats.drainForced = 1 :=
  have hclean := (drained_clean sampleServer_reaches (by decide +kernel)).1
  ⟨hclean.2.2.1, hclean.2.2.2.2.2.2.2⟩

/-- An abort ends one running task. -/
theorem abort_goes (h : Inv config policy s past)
    (hserving : s.serving = .aborting ∨ s.serving = .failed) (hidle : s.idle = false) :
    ∃ n t, next config policy s (.abort n) = some t ∧ t.serving = s.serving ∧
      t.tasks.countP isRunning + 1 = s.tasks.countP isRunning := by
  obtain ⟨n, c, hlive⟩ := live_of_not_idle hidle
  obtain ⟨hn, hc⟩ := live_some.mp hlive
  obtain ⟨t, ht⟩ := discard_isOk h hlive .aborted
  obtain ⟨stats, -, rfl⟩ := discard_ok ht
  refine ⟨n, s.release n { c with observation := none, fate := .aborted } stats, ?_, rfl, ?_⟩
  · simp only [next, step, hlive, Option.bind_eq_bind, Option.bind_some, hserving, if_true, ht]
    rfl
  · exact (countP_replace hn hc { c with observation := none, fate := .aborted }).1

/-- The event is one of the drain, and of no connection. -/
def isDrain : ServerEvent → Bool
  | .leave | .drained | .deadline | .joined | .abort _ => true
  | _ => false

/-- Aborted tasks can be dropped one by one. -/
theorem aborts (running : ℕ) (h : Inv config policy s past)
    (hserving : s.serving = .aborting ∨ s.serving = .failed)
    (hrunning : s.tasks.countP isRunning = running) :
    ∃ events t, Machine.exec (next config policy) s events = some t ∧ t.serving = s.serving ∧
      t.idle = true ∧ ∀ event ∈ events, isDrain event = true := by
  induction running generalizing s past with
  | zero =>
    refine ⟨[], s, rfl, rfl, idle_iff.mpr fun c hc hf => ?_, by simp⟩
    exact List.countP_eq_zero.mp hrunning c hc (decide_eq_true hf)
  | succ running ih =>
    have hidle : s.idle = false := by
      by_contra hidle
      have hzero : s.tasks.countP isRunning = 0 :=
        countP_of_idle (by simpa using hidle) fun c hc => of_decide_eq_true hc
      omega
    obtain ⟨n, t, hstep, ht, hcount⟩ := abort_goes h hserving hidle
    obtain ⟨events, u, hrun, hu, hdropped, hdrain⟩ :=
      ih (h.moves (next_moves hstep)) (by rwa [ht]) (by omega)
    exact ⟨.abort n :: events, u, Machine.exec_cons.mpr ⟨t, hstep, hrun⟩, hu.trans ht, hdropped,
      List.forall_mem_cons.mpr ⟨rfl, hdrain⟩⟩

/-- A forced drain ends once all tasks are dropped. -/
theorem aborting_completes (h : Inv config policy s past) (hserving : s.serving = .aborting) :
    ∃ events t, Machine.exec (next config policy) s events = some t ∧ t.serving = .returned ∧
      ∀ event ∈ events, isDrain event = true := by
  obtain ⟨events, t, hrun, ht, hidle, hdrain⟩ := aborts _ h (.inl hserving) rfl
  have hjoined : next config policy t .joined = some { t with serving := .returned } := by
    simp [next, step, ht, hserving, hidle, Except.toOption]
  refine ⟨events ++ [.joined], _, Machine.exec_append.mpr
    ⟨t, hrun, Machine.exec_cons.mpr ⟨_, hjoined, rfl⟩⟩, rfl, fun event hevent => ?_⟩
  rcases List.mem_append.mp hevent with hevent | hevent
  · exact hdrain event hevent
  · obtain rfl := List.mem_singleton.mp hevent
    rfl

/-- A server that drains gets to its end. -/
theorem draining_completes (h : Inv config policy s past) (hserving : s.serving = .draining) :
    ∃ events t, Machine.exec (next config policy) s events = some t ∧ t.serving = .returned ∧
      ∀ event ∈ events, isDrain event = true := by
  cases hidle : s.idle with
  | true =>
    refine ⟨[.drained], { s with
      serving := .returned
      stats := { s.stats with drainGraceful := s.stats.drainGraceful + 1 } }, ?_, rfl,
      by simp [isDrain]⟩
    simp [Machine.exec, next, step, hserving, hidle, Except.toOption]
  | false =>
    have hstep : next config policy s .deadline = some { s with
        serving := .aborting
        stats := { s.stats with drainForced := s.stats.drainForced + 1 } } := by
      simp [next, step, hserving, hidle, Except.toOption]
    obtain ⟨events, u, hrun, hu, hdrain⟩ := aborting_completes (h.moves (next_moves hstep)) rfl
    exact ⟨.deadline :: events, u, Machine.exec_cons.mpr ⟨_, hstep, hrun⟩, hu,
      List.forall_mem_cons.mpr ⟨rfl, hdrain⟩⟩

/-- The drain alone takes a server that is told to stop to its end. -/
theorem drains (h : Inv config policy s past) (hstop : s.stop = true)
    (hserving : s.serving ≠ .failed) :
    ∃ events t, Machine.exec (next config policy) s events = some t ∧ t.serving = .returned ∧
      ∀ event ∈ events, isDrain event = true := by
  cases hs : s.serving with
  | accepting =>
    have hleave : next config policy s .leave = some { s with
        serving := .draining
        stats := s.stats.unlisten } := by
      simp [next, step, hs, hstop, Except.toOption]
    obtain ⟨events, u, hrun, hu, hdrain⟩ := draining_completes (h.moves (next_moves hleave)) rfl
    exact ⟨.leave :: events, u, Machine.exec_cons.mpr ⟨_, hleave, hrun⟩, hu,
      List.forall_mem_cons.mpr ⟨rfl, hdrain⟩⟩
  | draining => exact draining_completes h hs
  | aborting => exact aborting_completes h hs
  | returned => exact ⟨[], s, rfl, hs, by simp⟩
  | failed => exact absurd hs hserving

/-- **A server can always be stopped.**  From every state of every run, unless its accept loop
    has failed, the server goes on to return, whatever its connections are doing: all it takes is
    the stop token and events of the drain. -/
theorem drain_completes {config : ServerConfig} {policy : Policy} {ready : Bool}
    {events : List ServerEvent} {s : Server} (h : Reaches config policy ready events s)
    (hserving : s.serving ≠ .failed) :
    ∃ drain t, (∀ event ∈ drain, isDrain event = true) ∧
      Machine.exec (next config policy) s (.cancel :: drain) = some t ∧
      t.serving = .returned := by
  have hcancel : next config policy s .cancel = some { s with stop := true } := rfl
  obtain ⟨drain, t, hrun, ht, hdrain⟩ := drains (h.inv.moves (next_moves hcancel)) rfl hserving
  exact ⟨drain, t, hdrain, Machine.exec_cons.mpr ⟨_, hcancel, hrun⟩, ht⟩

/-- A new server is stopped. -/
theorem drain_completes_from_start :
    ∃ drain t, (∀ event ∈ drain, isDrain event = true) ∧
      Machine.exec (next sampleConfig Driver.samplePolicy) sampleStart (.cancel :: drain) =
        some t ∧
      t.serving = .returned :=
  have hstart : Reaches sampleConfig Driver.samplePolicy true [] sampleStart :=
    ⟨sampleStart, rfl, rfl⟩
  drain_completes hstart (by decide)

end Server

end MtaHooks
