import MtaHooks.Server.Driver

namespace MtaHooks

open FallibleState

/-!
# Decisions are all-or-nothing

A decision that fails validation leaves the session as it was, and the fallback reply never
fails, so the reply to a callback is the whole decision or the fallback's single frame.

* `Driver.Sound` — what holds between the driver and its session in every run;
* `decision_all_or_nothing` — the main result, over the session and over the driver.
-/

namespace Session

/-- A decision without modifications whose final frame has no payload passes. -/
theorem complete_bare {s : Session} {stage : Stage} {v : Verdict} {command : UInt8}
    (hoptions : s.options.isSome) (hpending : s.pending = some stage)
    (hframe : 1 ≤ s.limits.frameBytes) (hfinal : finalFrame v = .ok (.empty command)) :
    complete { verdict := v } s = (.ok [.empty command], settle stage v s) := by
  obtain ⟨o, ho⟩ := Option.isSome_iff_exists.mp hoptions
  refine complete_of_completes (Nat.zero_le _) ⟨hpending, fun h => absurd rfl h, ?_, rfl⟩
  exact ⟨o, [], .empty command, ho, rfl, hfinal, hframe, by simp⟩

end Session

namespace Driver

/-! ### Driver and session -/

/-- What holds between the driver and its session. -/
structure Sound (config : Config) (d : Driver) : Prop where
  session : d.session.Reachable
  limits : d.session.limits = config.limits
  waiting : ∀ stage frames close, d.phase = .evaluating stage frames close →
    d.session.pending = some stage ∧ frames = [] ∧ close = false ∧ 1 ≤ config.limits.frameBytes

/-- A run of the driver from a new connection. -/
def Reaches (config : Config) (policy : Policy) (events : List Event) (d : Driver) : Prop :=
  Machine.exec (step config policy) (new config policy) events = some d

/-- A connection that replies evaluates nothing. -/
theorem reply_ne_evaluating (frames fs : List Frame) (stage : Stage) (close c : Bool) :
    reply frames close ≠ .evaluating stage fs c := by
  unfold reply
  split
  · exact fun h => nomatch h
  · split <;> exact fun h => nomatch h

/-- Composing a reply is one or two decisions. -/
theorem resolve_calls (failOpen : Bool) (outcome : Result Decision) (s : Session) :
    ∃ calls, (resolve failOpen outcome s).2 = Machine.after Session.call s calls := by
  unfold resolve
  cases outcome with
  | error e => exact ⟨[.complete (fallback failOpen)], rfl⟩
  | ok decision =>
    dsimp only
    rcases h : Session.complete decision s with ⟨r, t⟩
    cases r with
    | ok frames => exact ⟨[.complete decision], by simp [Session.call, h]⟩
    | error e =>
      exact ⟨[.complete decision, .complete (fallback failOpen)], by simp [Session.call, h]⟩

/-- A connection that composes its reply is sound. -/
theorem Sound.conclude {config : Config} {d : Driver} (h : Sound config d) (failOpen : Bool)
    (frames : List Frame) (close : Bool) (outcome : Result Decision) :
    Sound config (d.conclude failOpen frames close outcome) := by
  obtain ⟨calls, hcalls⟩ := resolve_calls failOpen outcome d.session
  obtain ⟨hreach, hlimits⟩ := h.session.after calls
  rw [← hcalls] at hreach hlimits
  unfold Driver.conclude
  rcases hr : resolve failOpen outcome d.session with ⟨r, t⟩
  rw [hr] at hreach hlimits
  cases r with
  | ok replies =>
    exact ⟨hreach, hlimits.trans h.limits,
      fun _ _ _ hp => absurd hp (reply_ne_evaluating _ _ _ _ _)⟩
  | error e => exact ⟨hreach, hlimits.trans h.limits, fun _ _ _ hp => nomatch hp⟩

/-- A connection that takes a frame is sound. -/
theorem Sound.handle {config : Config} {d : Driver} (h : Sound config d) (policy : Policy)
    (frame : Frame) (hlimit : frame.payload.length + 1 ≤ config.limits.frameBytes) :
    Sound config (d.handle config policy frame) := by
  have hreach : (d.session.call (.receive frame)).2.Reachable :=
    Machine.Reachable.next h.session _
  have hlimits := (h.session.call_fixed (.receive frame)).1.trans h.limits
  unfold Driver.handle
  rcases hr : Session.receive frame d.session with ⟨r, s⟩
  rw [show (d.session.call (.receive frame)).2 = s from congrArg Prod.snd hr] at hreach hlimits
  cases r with
  | error e => exact ⟨hreach, hlimits, fun _ _ _ hp => nomatch hp⟩
  | ok step =>
    dsimp only
    cases he : step.event with
    | none => exact ⟨hreach, hlimits, fun _ _ _ hp => absurd hp (reply_ne_evaluating _ _ _ _ _)⟩
    | some stage =>
      dsimp only
      split
      · obtain ⟨c, -, -, -, ha⟩ := Session.receive_ok hr
        obtain ⟨hpending, -, -, hstep⟩ := ha.event he
        refine ⟨hreach, hlimits, fun stage' frames close hp => ?_⟩
        obtain ⟨rfl, rfl, rfl⟩ := Phase.evaluating.inj hp
        exact ⟨hpending, by rw [hstep], by rw [hstep], by omega⟩
      · have hd : Sound config { d with session := s, phase := .reading } :=
          ⟨hreach, hlimits, fun _ _ _ hp => nomatch hp⟩
        exact hd.conclude _ _ _ _

/-- A write touches neither the session nor the phase. -/
theorem writeFrame_some {d d' : Driver} {frame : Frame} {w : Write} {r : Result Unit}
    (h : d.writeFrame frame w = some (d', r)) :
    d'.session = d.session ∧ d'.phase = d.phase := by
  unfold writeFrame at h
  split at h
  · obtain ⟨rfl, rfl⟩ := Prod.mk.inj (Option.some.inj h)
    exact ⟨rfl, rfl⟩
  · obtain ⟨rfl, rfl⟩ := Prod.mk.inj (Option.some.inj h)
    exact ⟨rfl, rfl⟩
  · split at h
    · obtain ⟨rfl, rfl⟩ := Prod.mk.inj (Option.some.inj h)
      exact ⟨rfl, rfl⟩
    · exact nomatch h

/-- **Each event keeps a connection sound.** -/
theorem Sound.moves {config : Config} {policy : Policy} {d d' : Driver} {event : Event}
    (h : Sound config d) (hm : Moves config policy d event d') : Sound config d' := by
  cases hm with
  | leave hphase => exact ⟨h.session, h.limits, fun _ _ _ hp => nomatch hp⟩
  | frame hphase hlimit => exact h.handle policy _ hlimit
  | decided hphase hevent => exact h.conclude _ _ _ _
  | kept hphase hwrite =>
    obtain ⟨hs, hp⟩ := writeFrame_some hwrite
    exact ⟨hs ▸ h.session, hs ▸ h.limits, by rw [hs, hp]; exact h.waiting⟩
  | lost hphase hwrite =>
    obtain ⟨hs, hp⟩ := writeFrame_some hwrite
    have hd : Sound config _ := ⟨hs ▸ h.session, hs ▸ h.limits, by rw [hs, hp]; exact h.waiting⟩
    exact hd.conclude _ _ _ _
  | wrote hphase hwrite =>
    obtain ⟨hs, -⟩ := writeFrame_some hwrite
    exact ⟨hs ▸ h.session, hs ▸ h.limits,
      fun _ _ _ hp => absurd hp (reply_ne_evaluating _ _ _ _ _)⟩
  | broke hphase hwrite =>
    obtain ⟨hs, -⟩ := writeFrame_some hwrite
    exact ⟨hs ▸ h.session, hs ▸ h.limits, fun _ _ _ hp => nomatch hp⟩

/-- **The driver and its session agree in every run.** -/
theorem Reaches.sound {config : Config} {policy : Policy} {events : List Event} {d : Driver}
    (h : Reaches config policy events d) : Sound config d := by
  have hnew : Sound config (new config policy) :=
    ⟨Machine.Reachable.init ⟨_, _, _, _, rfl⟩, rfl, fun _ _ _ hp => nomatch hp⟩
  exact Machine.exec_invariant_on h hnew fun _ _ _ _ hstep hs => hs.moves (step_moves hstep)

end Driver

/-! ### The main result -/

namespace Session

/-- The frames of a whole decision: those of all its modifications, then the final one.  A
    verdict that refuses or discards the message edits nothing. -/
def Whole (s : Session) (d : Decision) (frames : List Frame) : Prop :=
  ∃ parts final,
    List.Forall₂ (fun m fs => Modification.frames s.leadingSpace m = .ok fs) d.modifications parts ∧
    finalFrame d.verdict = .ok final ∧
    frames = (if rejected d.verdict ∨ d.verdict = .discard then [] else parts.flatten) ++ [final]

/-- An accepted decision is applied as a whole. -/
theorem complete_whole {s t : Session} {d : Decision} {frames : List Frame}
    (h : complete d s = (.ok frames, t)) : Whole s d frames := by
  obtain ⟨stage, -, -, ⟨o, mods, final, -, hmods, hfinal, -, rfl⟩, -⟩ := complete_ok h
  obtain ⟨parts, hparts, rfl⟩ := modificationFrames_ok hmods
  exact ⟨parts, final, hparts, hfinal, rfl⟩

/-- The final frame of the fallback verdict. -/
def fallbackFrame (failOpen : Bool) : Frame := .empty (if failOpen then byte 'c' else byte 't')

/-- The fallback is always accepted. -/
theorem complete_fallback {s : Session} {stage : Stage} (hs : s.Reachable)
    (hpending : s.pending = some stage) (hframe : 1 ≤ s.limits.frameBytes) (failOpen : Bool) :
    ∃ t, complete (Driver.fallback failOpen) s = (.ok [fallbackFrame failOpen], t) := by
  have hoptions : s.options.isSome := by
    rw [hs.valid.options, hs.valid.awaits stage hpending]
    cases stage <;> simp [Stage.awaits]
  cases failOpen with
  | false => exact ⟨_, complete_bare hoptions hpending hframe rfl⟩
  | true => exact ⟨_, complete_bare hoptions hpending hframe rfl⟩

/-- The reply composed for an outcome: the whole decision if it passes, else the fallback's
    frame alone. -/
theorem resolve_eq {s : Session} {stage : Stage} (hs : s.Reachable)
    (hpending : s.pending = some stage) (hframe : 1 ≤ s.limits.frameBytes) (failOpen : Bool)
    (outcome : Result Decision) :
    ∃ replies t, Driver.resolve failOpen outcome s = (.ok replies, t) ∧
      ((∃ d, outcome = .ok d ∧ complete d s = (.ok replies, t)) ∨
        (∀ d, outcome = .ok d → ∃ e, complete d s = (.error e, s)) ∧
          replies = [fallbackFrame failOpen]) := by
  obtain ⟨t, ht⟩ := complete_fallback hs hpending hframe failOpen
  cases outcome with
  | error e => exact ⟨_, t, ht, .inr ⟨fun _ h => (nomatch h), rfl⟩⟩
  | ok d =>
    unfold Driver.resolve
    rcases hr : complete d s with ⟨r, u⟩
    cases r with
    | ok frames => exact ⟨frames, u, by simp [hr], .inl ⟨d, rfl, hr⟩⟩
    | error e =>
      obtain rfl := complete_error hr
      refine ⟨_, t, by simp [hr, ht], .inr ⟨fun d' h => ?_, rfl⟩⟩
      obtain rfl := Except.ok.inj h
      exact ⟨e, hr⟩

end Session

namespace Driver

open Session

/-- **Decisions are all-or-nothing.**  A refused decision leaves the session as it was, and
    the fallback decisions then pass with a single frame.  Whatever the outcome of a callback
    that the driver evaluates, the reply it goes on to write is the whole decision, if it
    passes, and the fallback's frame alone otherwise. -/
theorem decision_all_or_nothing :
    (∀ (s : Session) (stage : Stage), s.Reachable → s.pending = some stage →
      1 ≤ s.limits.frameBytes → ∀ (d : Decision) (e : Error) (t : Session),
        complete d s = (.error e, t) →
          t = s ∧ t.pending = some stage ∧
          (∃ u, complete { verdict := .tempfail } t = (.ok [.empty (byte 't')], u)) ∧
          ∃ u, complete { verdict := .continue } t = (.ok [.empty (byte 'c')], u)) ∧
    ∀ (config : Config) (policy : Policy) (events : List Event) (d : Driver) (stage : Stage)
      (frames : List Frame) (close : Bool), Reaches config policy events d →
      d.phase = .evaluating stage frames close →
      ∀ (event : Event) (outcome : Result Decision),
        (event = .evaluated outcome ∨ event = .deadline ∧ outcome = .error .timeout) →
        ∃ d' first rest, step config policy d event = some d' ∧
          d'.phase = .writing first rest false ∧ d'.sent = d.sent ∧
          ((∃ decision, outcome = .ok decision ∧
              complete decision d.session = (.ok (first :: rest), d'.session) ∧
              Whole d.session decision (first :: rest)) ∨
            (∀ decision, outcome = .ok decision →
                ∃ e, complete decision d.session = (.error e, d.session)) ∧
              first :: rest = [.empty (if config.failOpen then byte 'c' else byte 't')]) := by
  constructor
  · intro s stage hs hpending hframe d e t h
    obtain rfl := complete_error h
    exact ⟨rfl, hpending, complete_fallback hs hpending hframe false,
      complete_fallback hs hpending hframe true⟩
  · intro config policy events d stage frames close hrun hphase event outcome hevent
    have hsound := hrun.sound
    obtain ⟨hpending, rfl, rfl, hframe⟩ := hsound.waiting _ _ _ hphase
    obtain ⟨replies, t, hresolve, hcases⟩ := resolve_eq hsound.session hpending
      (hsound.limits ▸ hframe) config.failOpen outcome
    have hconclude : conclude config.failOpen d [] false outcome =
        { d with session := t, phase := reply replies false } := by
      simp [conclude, hresolve]
    have hstep :
        step config policy d event = some (conclude config.failOpen d [] false outcome) := by
      rcases hevent with rfl | ⟨rfl, rfl⟩ <;> simp [step, hphase]
    rw [hconclude] at hstep
    rcases hcases with ⟨decision, rfl, hok⟩ | ⟨hbad, rfl⟩
    · have hwhole := complete_whole hok
      obtain ⟨first, rest, rfl⟩ : ∃ first rest, replies = first :: rest := by
        obtain ⟨parts, final, -, -, hframes⟩ := hwhole
        exact List.exists_cons_of_ne_nil (by rw [hframes]; simp)
      exact ⟨_, first, rest, hstep, rfl, rfl, .inl ⟨decision, rfl, hok, hwhole⟩⟩
    · exact ⟨_, _, _, hstep, rfl, rfl, .inr ⟨hbad, rfl⟩⟩

/-- A policy subscribed to CONNECT. -/
def samplePolicy : Policy := ⟨[.connect], supportedActions, []⟩

/-- A connection up to its first callback. -/
def sampleEvents : List Event := [.frame Sample.offer, .write .done, .frame Sample.connect]

/-- It gets there. -/
theorem sampleEvents_run :
    (Machine.exec (step {} samplePolicy) (new {} samplePolicy) sampleEvents).isSome := by
  decide +kernel

/-- The connection whose CONNECT callback is being evaluated. -/
def sampleDriver : Driver := Option.get _ sampleEvents_run

/-- The sample is a run. -/
theorem sampleDriver_reaches : Reaches {} samplePolicy sampleEvents sampleDriver :=
  (Option.some_get _).symm

/-- The callback of the sample is decided. -/
theorem decision_all_or_nothing_at_connect :
    (∃ u, complete { verdict := .tempfail }
        (Sample.received [.connect] [Sample.offer, Sample.connect])
      = (.ok [.empty (byte 't')], u)) ∧
    ∃ d' first rest, step {} samplePolicy sampleDriver .deadline = some d' ∧
      d'.phase = .writing first rest false := by
  constructor
  · have herror : (complete { modifications := [.quarantine "q"] }
          (Sample.received [.connect] [Sample.offer, Sample.connect])).1
        = .error (.invalid "modifications require EOM") := by decide +kernel
    exact (decision_all_or_nothing.1 _ .connect (Sample.received_reachable _ _) (by decide +kernel)
      (by decide +kernel) _ _ _ (complete_of_error herror)).2.2.1
  · obtain ⟨d', first, rest, hstep, hphase, -⟩ :=
      decision_all_or_nothing.2 {} samplePolicy sampleEvents sampleDriver .connect [] false
        sampleDriver_reaches (by decide +kernel) .deadline _ (.inr ⟨rfl, rfl⟩)
    exact ⟨d', first, rest, hstep, hphase⟩

end Driver

end MtaHooks
