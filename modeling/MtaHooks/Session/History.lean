import MtaHooks.Session.Invariant

namespace MtaHooks

open FallibleState

/-!
# The history of a session

An `Exchange` is one accepted command with the step it got and, once its callback is decided,
the decision and the frames it was answered with.  `history s calls` lists the exchanges of a
run, the newest first; refused calls leave none.

* `Logs` / `logged_step` — what one call can do to session and history;
* `Tracks` — the callback awaiting a decision is that of the newest exchange.
-/

/-- An accepted command and what it was answered with. -/
structure Exchange where
  command : Command
  /-- The options in force after the command. -/
  options : Option Options
  step : Step
  decision : Option (Decision × List Frame) := none

namespace Exchange

/-- The callback of the exchange, while it has no decision. -/
def waiting (e : Exchange) : Option Stage :=
  match e.decision with
  | none => e.step.event
  | some _ => none

/-- Enter the decision of the newest exchange. -/
def decide (decision : Decision) (frames : List Frame) : List Exchange → List Exchange
  | [] => []
  | e :: log => { e with decision := some (decision, frames) } :: log

end Exchange

namespace Session

/-- Extend the history by an accepted command. -/
def enter (log : List Exchange) : Result Command → Result Step × Session → List Exchange
  | .ok command, (.ok step, t) => { command, options := t.options, step } :: log
  | _, _ => log

/-- Extend the history by a settled decision. -/
def close (log : List Exchange) (d : Decision) : Result (List Frame) × Session → List Exchange
  | (.ok frames, _) => Exchange.decide d frames log
  | (.error _, _) => log

/-- Extend the history by one call. -/
def record (log : List Exchange) (s : Session) : Call → List Exchange
  | .receive f => enter log (Command.decode f) (receive f s)
  | .complete d => close log d (complete d s)

/-- A session with its history. -/
abbrev Logged := Session × List Exchange

/-- Run one call and extend the history. -/
def loggedCall (x : Logged) (i : Call) : Answer × Logged :=
  ((x.1.call i).1, ((x.1.call i).2, record x.2 x.1 i))

/-- The session and the history after a run. -/
def loggedAfter (s : Session) (calls : List Call) : Logged := Machine.after loggedCall (s, []) calls

/-- The exchanges of a run, the newest first. -/
def history (s : Session) (calls : List Call) : List Exchange := (loggedAfter s calls).2

/-- The history does not disturb the session. -/
theorem loggedAfter_session (s : Session) (calls : List Call) :
    (loggedAfter s calls).1 = Machine.after call s calls := by
  suffices h : ∀ log, (Machine.after loggedCall (s, log) calls).1 = Machine.after call s calls from
    h []
  induction calls generalizing s with
  | nil => exact fun _ => rfl
  | cons i calls ih => exact fun log => ih (s.call i).2 (record log s i)

/-! ### One call -/

/-- What one call can do to session and history. -/
inductive Logs (s : Session) (log : List Exchange) : Logged → Prop
  | accepted {c : Command} {step : Step} {t : Session} (hpending : s.pending = none)
      (hopen : s.state ≠ .closed) (haccepts : Accepts s c step t) :
    Logs s log (t, { command := c, options := t.options, step } :: log)
  | refused {t : Session} (hsame : SameView s t) : Logs s log (t, log)
  | dropped {t : Session} (hpending : s.pending = none) (hready : s.state = .ready)
      (hsame : SameView s.resetMessage t) : Logs s log (t, log)
  | decided {d : Decision} {stage : Stage} {frames : List Frame} {t : Session}
      (hcompletes : Completes s d stage frames t) :
    Logs s log (t, Exchange.decide d frames log)

/-- One call is logged as it is answered. -/
theorem logged_step {s : Session} (hs : Valid s) (log : List Exchange) (i : Call) :
    Logs s log (loggedCall (s, log) i).2 := by
  cases i with
  | receive f =>
    show Logs s log ((receive f s).2, enter log (Command.decode f) (receive f s))
    rcases hr : receive f s with ⟨r, t⟩
    cases r with
    | ok step =>
      obtain ⟨c, hc, hpending, hopen, ha⟩ := receive_ok hr
      rw [hc]
      exact .accepted hpending hopen ha
    | error e =>
      have hlog : enter log (Command.decode f) (.error e, t) = log := by
        cases Command.decode f <;> rfl
      rw [hlog]
      rcases receive_error hs.options.mpr hr with hsame | ⟨hpending, hready, hsame⟩
      · exact .refused hsame
      · exact .dropped hpending hready hsame
  | complete d =>
    show Logs s log ((complete d s).2, close log d (complete d s))
    rcases hr : complete d s with ⟨r, t⟩
    cases r with
    | ok frames =>
      obtain ⟨stage, hc⟩ := complete_ok hr
      exact .decided hc
    | error e =>
      rw [complete_error hr]
      exact .refused rfl

/-- Validity along a history. -/
theorem Logs.valid {s : Session} {log : List Exchange} {x : Logged} (h : Logs s log x)
    (hs : Valid s) : Valid x.1 := by
  cases h with
  | accepted hpending _ haccepts => exact haccepts.valid hs hpending
  | refused hsame => exact hs.of_sameView hsame
  | dropped _ hready hsame => exact (hs.reset hready).of_sameView hsame
  | @decided d stage frames t hc =>
    show Valid t
    rw [hc.settled]
    exact settle_valid d.verdict hc.pending hs

/-- **Invariant rule for histories.** -/
theorem logged_invariant {P : Logged → Prop} {s : Session} (hs : s.Initial) (hP : P (s, []))
    (hstep : ∀ s log x, Valid s → P (s, log) → Logs s log x → P x) (calls : List Call) :
    P (loggedAfter s calls) := by
  have hboth : ∀ x : Logged, ∀ i ∈ calls, Valid x.1 ∧ P x →
      Valid (loggedCall x i).2.1 ∧ P (loggedCall x i).2 := by
    rintro ⟨s, log⟩ i - ⟨hv, hp⟩
    have hl := logged_step hv log i
    exact ⟨hl.valid hv, hstep s log _ hv hp hl⟩
  have hstart : Valid (s, ([] : List Exchange)).1 ∧ P (s, []) := ⟨hs.valid, hP⟩
  have hend := Machine.run_invariant_on (P := fun x => Valid x.1 ∧ P x) calls _ hstart hboth
  exact hend.2

/-! ### The callback in progress -/

/-- The callback awaiting a decision is that of the newest exchange, and every older exchange
    is closed. -/
def Tracks (x : Logged) : Prop :=
  x.1.pending = x.2.head?.bind Exchange.waiting ∧ ∀ e ∈ x.2.tail, e.waiting = none

/-- After a decision nothing is pending. -/
theorem settle_pending (stage : Stage) (v : Verdict) (s : Session) :
    (settle stage v s).pending = none := by
  unfold settle
  dsimp only
  split_ifs <;> rfl

/-- An accepted frame leaves its own callback pending. -/
theorem Accepts.pending {s t : Session} {c : Command} {step : Step} (h : Accepts s c step t)
    (hpending : s.pending = none) : t.pending = step.event := by
  cases h with
  | negotiate _ _ _ => exact hpending
  | macros _ _ => exact hpending
  | @perform _ u _ hperforms =>
    have hu := hperforms.pending hpending
    unfold awaiting answer
    cases raised u.stages c.stage with
    | none => exact hu
    | some stage => rfl

/-- A call that is logged keeps the log on the track of the session. -/
theorem Logs.tracks {s : Session} {log : List Exchange} {x : Logged} (h : Logs s log x)
    (ht : Tracks (s, log)) : Tracks x := by
  obtain ⟨hhead, htail⟩ := ht
  cases h with
  | accepted hpending _ haccepts =>
    refine ⟨haccepts.pending hpending, fun e he => ?_⟩
    -- Nothing was pending, so the exchange that was the newest is closed too.
    cases log with
    | nil => exact nomatch he
    | cons e' log =>
      rcases List.mem_cons.mp he with rfl | he
      · exact hhead.symm.trans hpending
      · exact htail e he
  | refused hsame => exact ⟨hsame.pending.trans hhead, htail⟩
  | dropped hpending _ hsame => exact ⟨hsame.pending.trans (hpending.symm.trans hhead), htail⟩
  | @decided d stage frames t hc =>
    have hnone : t.pending = none := by rw [hc.settled]; exact settle_pending _ _ _
    cases log with
    | nil => exact ⟨hnone, htail⟩
    | cons e log => exact ⟨hnone, htail⟩

end Session

end MtaHooks
