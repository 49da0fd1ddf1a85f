import MtaHooks.Session.Invariant

namespace MtaHooks

open FallibleState

/-!
# A stopped connection

After a shutdown, or a rejection of CONNECT or HELO, the session is `stopped`.  Every frame
is then refused or silent, and only QUIT_NC leads out, with one exception: the arm of UNKNOWN
guards no state, so an unknown SMTP command is accepted and answered.

* `Stops` — the verdicts that stop a connection, and `stopped_of_complete` what they leave;
* `quiet_iff` — the connection stays quiet over a sequence of frames exactly when no unknown
  command comes before the end of the connection;
* `sampleStopped_not_quiet` — a stopped session that answers.
-/

namespace Session

/-- The verdict stops the connection at this stage. -/
def Stops (stage : Stage) (v : Verdict) : Prop :=
  v = .shutdown ∨ rejected v ∧ (stage = .connect ∨ stage = .helo)

/-- Stopped, nothing pending, and still negotiated. -/
structure Stopped (s : Session) : Prop where
  state : s.state = .stopped
  pending : s.pending = none
  options : s.options.isSome

/-- A settled verdict that stops leaves a stopped session. -/
theorem stopped_of_complete {s t : Session} {stage : Stage} {d : Decision} {frames : List Frame}
    (hs : s.Reachable) (hpending : s.pending = some stage) (hstops : Stops stage d.verdict)
    (h : complete d s = (.ok frames, t)) : Stopped t := by
  obtain ⟨stage', hc⟩ := complete_ok h
  obtain rfl : stage = stage' := Option.some.inj (hpending.symm.trans hc.pending)
  have hoptions : s.options.isSome := by
    rw [hs.valid.options, hs.valid.awaits stage hpending]
    cases stage <;> simp [Stage.awaits]
  rw [hc.settled]
  unfold settle
  rcases hstops with hshut | ⟨hrej, hstage⟩
  · rw [if_pos hshut]
    exact ⟨rfl, rfl, hoptions⟩
  · by_cases hshut : d.verdict = .shutdown
    · rw [if_pos hshut]
      exact ⟨rfl, rfl, hoptions⟩
    · have hrcpt : ¬ (rejected d.verdict ∧ stage = .recipient) := by
        rintro ⟨-, rfl⟩
        rcases hstage with h | h <;> cases h
      rw [if_neg hshut, if_neg hrcpt, if_pos ⟨hrej, hstage⟩]
      exact ⟨rfl, rfl, hoptions⟩

/-- The commands a stopped session may accept. -/
def allowed : Command → Bool
  | .abort | .quit | .quitNewConnection | .macros .. => true
  | _ => false

/-- What an accepted frame does to a stopped session. -/
theorem Stopped.accepts {s t : Session} {c : Command} {step : Step} (h : Stopped s)
    (ha : Accepts s c step t) :
    (allowed c = true ∧ step.frames = [] ∧ step.event = none ∧
      (c = .quitNewConnection ∨ c = .quit ∧ t.state = .closed ∧ t.options.isSome ∨
        c ≠ .quit ∧ Stopped t)) ∨
    ∃ text, c = .unknown text := by
  have hstate := h.state
  cases ha with
  | negotiate hinit _ _ => exact nomatch hstate.symm.trans hinit
  | macros _ _ =>
    exact .inl ⟨rfl, rfl, rfl, .inr (.inr ⟨nofun, h.state, h.pending, h.options⟩)⟩
  | perform _ hperforms =>
    cases hperforms with
    | connect hin => exact nomatch hstate.symm.trans hin
    | helo hin => exact nomatch hstate.symm.trans hin
    | mail hin _ => exact nomatch hstate.symm.trans hin
    | recipient hin _ _ => rcases hin with hin | hin <;> exact nomatch hstate.symm.trans hin
    | data hin => exact nomatch hstate.symm.trans hin
    | header hin _ _ => rcases hin with hin | hin <;> exact nomatch hstate.symm.trans hin
    | endHeaders hin _ => rcases hin with hin | hin <;> exact nomatch hstate.symm.trans hin
    | body hin _ => exact nomatch hstate.symm.trans hin
    | endMessage hin => exact nomatch hstate.symm.trans hin
    | abort =>
      -- ABORT leaves a stopped session stopped, connection or not.
      have hstay : ¬ (s.connection.isSome ∧ s.state ≠ .stopped) := fun hc => hc.2 hstate
      rw [if_neg hstay, (answer_silent _ rfl rfl).1, (answer_silent _ rfl rfl).2]
      exact .inl ⟨rfl, rfl, rfl, .inr (.inr ⟨nofun, hstate, rfl, h.options⟩)⟩
    | quit =>
      rw [(answer_silent _ rfl rfl).1, (answer_silent _ rfl rfl).2]
      exact .inl ⟨rfl, rfl, rfl, .inr (.inl ⟨rfl, rfl, h.options⟩)⟩
    | quitNewConnection =>
      rw [(answer_silent _ rfl rfl).1]
      exact .inl ⟨rfl, rfl, rfl, .inl rfl⟩
    | unknown => exact .inr ⟨_, rfl⟩

/-- A refused frame leaves a stopped session stopped. -/
theorem Stopped.refused {s t : Session} {f : Frame} {e : Error} (h : Stopped s)
    (hr : receive f s = (.error e, t)) : Stopped t := by
  rcases receive_error (fun _ => h.options) hr with hsame | ⟨-, hready, -⟩
  · exact ⟨hsame.state.trans h.state, hsame.pending.trans h.pending, hsame.options ▸ h.options⟩
  · exact nomatch h.state.symm.trans hready

/-- A stopped session accepts QUIT. -/
theorem Stopped.quit {s : Session} {f : Frame} (h : Stopped s)
    (hf : Command.decode f = .ok .quit) : ∃ step t, receive f s = (.ok step, t) := by
  obtain ⟨o, ho⟩ := Option.isSome_iff_exists.mp h.options
  simp [receive, run_bind, h.pending, hf, h.state, accept, dispatch, mailPrelude, arm, finish,
    raised]

/-- A stopped session accepts an unknown command: its arm requires no state. -/
theorem Stopped.unknown {s : Session} {f : Frame} {text : Bytes} (h : Stopped s)
    (hf : Command.decode f = .ok (.unknown text)) : ∃ step t, receive f s = (.ok step, t) := by
  obtain ⟨o, ho⟩ := Option.isSome_iff_exists.mp h.options
  simp [receive, run_bind, h.pending, hf, h.state, accept, dispatch, mailPrelude, arm, finish,
    raised, ho]

/-! ### Sequences of frames -/

/-- Frame by frame, up to a QUIT_NC: what is accepted is allowed, has no reply and raises no
    callback, and the session stays stopped or closed. -/
def Quiet (s : Session) : List Frame → Prop
  | [] => True
  | f :: fs =>
    (∀ step t, receive f s = (.ok step, t) → step.frames = [] ∧ step.event = none ∧
      ∃ c, Command.decode f = .ok c ∧ allowed c = true) ∧
    (Command.decode f ≠ .ok .quitNewConnection →
      ((receive f s).2.state = .stopped ∨ (receive f s).2.state = .closed) ∧
        Quiet (receive f s).2 fs)

/-- No unknown command comes before the first QUIT or QUIT_NC. -/
def NoUnknown : List Frame → Prop
  | [] => True
  | f :: fs =>
    (∀ text, Command.decode f ≠ .ok (.unknown text)) ∧
    (Command.decode f ≠ .ok .quit → Command.decode f ≠ .ok .quitNewConnection → NoUnknown fs)

/-- A closed session refuses every frame and stays closed. -/
theorem receive_closed {s : Session} (hstate : s.state = .closed) (hoptions : s.options.isSome)
    (f : Frame) : ∃ e t, receive f s = (.error e, t) ∧ t.state = .closed ∧ t.options.isSome := by
  rcases hr : receive f s with ⟨r, t⟩
  cases r with
  | ok step =>
    obtain ⟨c, -, -, hopen, -⟩ := receive_ok hr
    exact absurd hstate hopen
  | error e =>
    rcases receive_error (fun _ => hoptions) hr with hsame | ⟨-, hready, -⟩
    · exact ⟨e, t, rfl, hsame.state.trans hstate, hsame.options ▸ hoptions⟩
    · exact nomatch hstate.symm.trans hready

/-- A session that is closed takes no frame. -/
theorem closed_quiet {s : Session} (hstate : s.state = .closed) (hoptions : s.options.isSome)
    (fs : List Frame) : Quiet s fs := by
  induction fs generalizing s with
  | nil => trivial
  | cons f fs ih =>
    obtain ⟨e, t, hr, hclosed, hopt⟩ := receive_closed hstate hoptions f
    refine ⟨fun step u hok => ?_, fun _ => ?_⟩
    · exact nomatch hr.symm.trans hok
    · rw [hr]
      exact ⟨.inr hclosed, ih hclosed hopt⟩

/-- One frame other than an unknown command: an allowed one, or refused. -/
theorem Stopped.next {s : Session} {f : Frame} (h : Stopped s)
    (hf : ∀ text, Command.decode f ≠ .ok (.unknown text)) :
    (∀ step t, receive f s = (.ok step, t) → step.frames = [] ∧ step.event = none ∧
      ∃ c, Command.decode f = .ok c ∧ allowed c = true) ∧
    (Command.decode f = .ok .quitNewConnection ∨
      Command.decode f = .ok .quit ∧ (receive f s).2.state = .closed ∧
        (receive f s).2.options.isSome ∨
      Command.decode f ≠ .ok .quit ∧ Stopped (receive f s).2) := by
  rcases hr : receive f s with ⟨r, t⟩
  cases r with
  | ok step =>
    obtain ⟨c, hc, -, -, ha⟩ := receive_ok hr
    rcases h.accepts ha with ⟨hallowed, hframes, hevent, hnext⟩ | ⟨text, rfl⟩
    · refine ⟨fun step' t' heq => ?_, ?_⟩
      · obtain ⟨hstep, -⟩ := Prod.mk.inj heq
        obtain rfl := Except.ok.inj hstep
        exact ⟨hframes, hevent, c, hc, hallowed⟩
      · rcases hnext with rfl | ⟨rfl, hclosed⟩ | ⟨hquit, hstopped⟩
        · exact .inl hc
        · exact .inr (.inl ⟨hc, hclosed⟩)
        · exact .inr (.inr ⟨fun hq => hquit (Except.ok.inj (hc.symm.trans hq)), hstopped⟩)
    · exact absurd hc (hf text)
  | error e =>
    refine ⟨fun _ _ heq => (nomatch heq), .inr (.inr ⟨fun hq => ?_, h.refused hr⟩)⟩
    obtain ⟨step, t', hok⟩ := h.quit hq
    exact nomatch hr.symm.trans hok

/-- A stopped session stays quiet exactly without unknown commands. -/
theorem Stopped.stays_quiet_iff {s : Session} (h : Stopped s) (fs : List Frame) :
    Quiet s fs ↔ NoUnknown fs := by
  induction fs generalizing s with
  | nil => exact Iff.rfl
  | cons f fs ih =>
    constructor
    · rintro ⟨hone, hrest⟩
      have hf : ∀ text, Command.decode f ≠ .ok (.unknown text) := by
        intro text hf
        obtain ⟨step, t, hr⟩ := h.unknown hf
        obtain ⟨-, -, c, hc, hallowed⟩ := hone step t hr
        obtain rfl := Except.ok.inj (hf.symm.trans hc)
        exact nomatch hallowed
      refine ⟨hf, fun hquit hnew => ?_⟩
      rcases (h.next hf).2 with hnew' | ⟨hquit', -⟩ | ⟨-, hstopped⟩
      · exact absurd hnew' hnew
      · exact absurd hquit' hquit
      · exact (ih hstopped).mp (hrest hnew).2
    · rintro ⟨hf, hrest⟩
      obtain ⟨hone, hnext⟩ := h.next hf
      refine ⟨hone, fun hnew => ?_⟩
      rcases hnext with hnew' | ⟨-, hclosed, hoptions⟩ | ⟨hquit, hstopped⟩
      · exact absurd hnew' hnew
      · exact ⟨.inr hclosed, closed_quiet hclosed hoptions fs⟩
      · exact ⟨.inl hstopped.state, (ih hstopped).mpr (hrest hquit hnew)⟩

/-- **When a stopped connection stays silent.**  After a verdict that stops the connection,
    every frame up to a QUIT_NC is refused or silently accepted as ABORT, QUIT, QUIT_NC or a
    macro definition, and the session never leaves `stopped` but for `closed`, exactly when no
    unknown command comes before the end of the connection. -/
theorem quiet_iff {s t : Session} {stage : Stage} {d : Decision} {frames : List Frame}
    (hs : s.Reachable) (hpending : s.pending = some stage) (hstops : Stops stage d.verdict)
    (h : complete d s = (.ok frames, t)) (fs : List Frame) : Quiet t fs ↔ NoUnknown fs :=
  (stopped_of_complete hs hpending hstops h).stays_quiet_iff fs

/-- A connection refused at CONNECT. -/
def sampleConnecting : Session := Sample.received [.connect] [Sample.offer, Sample.connect]

/-- A session that was shut down at CONNECT. -/
def sampleStopped : Session := (complete { verdict := .shutdown } sampleConnecting).2

/-- It answers the shutdown. -/
theorem sampleStopped_complete :
    complete { verdict := .shutdown } sampleConnecting = (.ok [.empty shutdown], sampleStopped) :=
  Prod.ext (by decide +kernel) rfl

/-- It is quiet from an ABORT on. -/
theorem quiet_at_abort : Quiet sampleStopped [Sample.abort, Sample.mail, Sample.abort] := by
  have hconnecting : sampleConnecting.Reachable := Sample.received_reachable _ _
  have hpending : sampleConnecting.pending = some .connect := by decide +kernel
  refine (quiet_iff hconnecting hpending (.inl rfl) sampleStopped_complete _).mpr ?_
  have habort : Command.decode Sample.abort = .ok .abort := by decide +kernel
  have hmail : Command.decode Sample.mail = .ok (.mail ["<a>"]) := by decide +kernel
  simp [NoUnknown, habort, hmail]

/-- The stopped session answers an unknown command. -/
theorem sampleStopped_not_quiet :
    (receive Sample.unknown sampleStopped).1 = .ok { frames := [.empty (byte 'c')] } ∧
      ¬ Quiet sampleStopped [Sample.unknown] := by
  have hanswer : (receive Sample.unknown sampleStopped).1
      = .ok { frames := [.empty (byte 'c')] } := by decide +kernel
  refine ⟨hanswer, fun hquiet => ?_⟩
  obtain ⟨hframes, -⟩ := hquiet.1 _ _ (Prod.ext hanswer rfl)
  exact nomatch hframes

end Session

end MtaHooks
