import MtaHooks.Server.Serve
import MtaHooks.Session.Safety

namespace MtaHooks

open FallibleState

/-!
# What a connection is measured by

The kinds of steps of a connection that the metrics count, read off the connection alone, and
the one lemma that connects them with what `handle_connection` counts.

* `ConnectionTask.Held` — a task holds an observation exactly while a callback is evaluated;
* `ConnectionTask.count_spec` — counting an event never aborts; it adds to each counter what
  the event is of its kind, begins an observation with a callback and finishes it with the
  callback's result.
-/

namespace Driver

/-- The callback an event raises. -/
def raised (d : Driver) (event : Event) : Option Stage :=
  match d.phase, event with
  | .reading, .frame frame =>
    match Session.receive frame d.session with
    | (.ok step, _) => step.event
    | (.error _, _) => none
  | _, _ => none

/-- The result of the callback an event settles. -/
def settled (d : Driver) (event : Event) : Option (Result (List Frame)) :=
  match d.phase, event with
  | .evaluating _ _ _, .evaluated outcome => some (ConnectionTask.completed outcome d.session)
  | .evaluating _ _ _, .deadline => some (.error .timeout)
  | .evaluating _ _ _, .tick write =>
    match d.writeFrame (.empty MtaHooks.progress) write with
    | some (_, .error e) => some (.error e)
    | _ => none
  | _, _ => none

/-- The end of a message. -/
def isMessage (d : Driver) (event : Event) : Bool := raised d event = some .endMessage

/-- A progress keepalive. -/
def isProgress (_ : Driver) (event : Event) : Bool :=
  match event with
  | .tick _ => true
  | _ => false

/-- A callback answered with the policy's decision. -/
def isDecided (d : Driver) (event : Event) : Bool :=
  match settled d event with
  | some (.ok _) => true
  | _ => false

/-- A callback answered with the fallback. -/
def isFailed (d : Driver) (event : Event) : Bool :=
  match settled d event with
  | some (.error _) => true
  | _ => false

/-! ### The phase after a step -/

/-- A connection that writes or reads evaluates nothing. -/
theorem reply_not_evaluating {d : Driver} {frames : List Frame} {close : Bool}
    (h : d.phase = reply frames close) : d.evaluating = false := by
  unfold evaluating
  rw [h]
  unfold reply
  cases frames with
  | nil => cases close <;> rfl
  | cons frame frames => rfl

/-- A connection that has concluded evaluates nothing. -/
theorem conclude_not_evaluating (failOpen : Bool) (d : Driver) (frames : List Frame)
    (close : Bool) (outcome : Result Decision) :
    (d.conclude failOpen frames close outcome).evaluating = false := by
  unfold conclude
  split
  · exact reply_not_evaluating rfl
  · rfl

/-- The stage that a frame raises is that of the session's step. -/
theorem raised_frame {d : Driver} (frame : Frame) (hphase : d.phase = .reading) :
    raised d (.frame frame) =
      match Session.receive frame d.session with
      | (.ok step, _) => step.event
      | (.error _, _) => none := by
  unfold raised
  rw [hphase]

/-- A frame leads to an evaluation exactly if it raises a callback the policy subscribed. -/
theorem handle_evaluating (config : Config) (policy : Policy) {d : Driver} (frame : Frame)
    (hphase : d.phase = .reading) :
    (d.handle config policy frame).evaluating =
      match raised d (.frame frame) with
      | some stage => decide (stage ∈ policy.stages)
      | none => false := by
  rw [raised_frame frame hphase]
  unfold handle
  rcases Session.receive frame d.session with ⟨r, s⟩
  cases r with
  | error e => rfl
  | ok step =>
    dsimp only
    cases step.event with
    | none =>
      exact reply_not_evaluating (d := { d with session := s, phase := reply _ _ }) rfl
    | some stage =>
      dsimp only
      by_cases hstage : stage ∈ policy.stages
      · rw [if_pos hstage, decide_eq_true hstage]
        rfl
      · rw [if_neg hstage, decide_eq_false hstage]
        exact conclude_not_evaluating _ _ _ _ _

end Driver

namespace ConnectionTask

open Driver (raised settled isMessage isProgress isDecided isFailed)

/-- A task holds an observation exactly while a callback is evaluated, and as cancelled until
    the callback ends. -/
structure Held (c : ConnectionTask) : Prop where
  evaluating : c.observation.isSome = c.driver.evaluating
  outcome : ∀ o, c.observation = some o → o.outcome = "cancelled"

/-- A connection that evaluates nothing holds no observation. -/
theorem Held.none {c : ConnectionTask} (h : c.driver.evaluating = false)
    (ho : c.observation = none) : Held c where
  evaluating := by rw [ho, h]; rfl
  outcome o h' := by rw [ho] at h'; exact nomatch h'

/-- The finished observations an event adds. -/
def entries (now : ℕ) (c : ConnectionTask) (event : Event) : List (ℕ × String) :=
  match c.observation, settled c.driver event with
  | some o, some result => [(now - o.started, outcomeOf result)]
  | _, _ => []

/-- An event that settles nothing leaves no entry. -/
theorem entries_unsettled (now : ℕ) {c : ConnectionTask} {event : Event}
    (h : settled c.driver event = none) : c.entries now event = [] := by
  unfold entries
  rw [h]
  cases c.observation <;> rfl

/-- Only a connection that evaluates a callback can settle one. -/
theorem settled_evaluating {d : Driver} {event : Event} {result : Result (List Frame)}
    (h : settled d event = some result) : d.evaluating = true := by
  unfold settled at h
  unfold Driver.evaluating
  cases hphase : d.phase with
  | evaluating stage frames close => rfl
  | _ => simp [hphase] at h

/-- The entries of an event by their labels. -/
theorem entries_counts (now : ℕ) {c : ConnectionTask} (event : Event) (hheld : c.Held) :
    ((c.entries now event).countP fun x => x.2 = "success") =
        (isDecided c.driver event).toNat ∧
      ((c.entries now event).countP fun x => x.2 = "cancelled") = 0 ∧
      (c.entries now event).length =
        (isDecided c.driver event).toNat + (isFailed c.driver event).toNat := by
  unfold isDecided isFailed
  cases hsettled : settled c.driver event with
  | none =>
    rw [entries_unsettled now hsettled]
    exact ⟨rfl, rfl, rfl⟩
  | some result =>
    have hsome := hheld.evaluating.trans (settled_evaluating hsettled)
    obtain ⟨o, ho⟩ := Option.isSome_iff_exists.mp hsome
    have hentries : c.entries now event = [(now - o.started, outcomeOf result)] := by
      unfold entries
      rw [ho, hsettled]
    rw [hentries]
    cases result with
    | ok frames => exact ⟨rfl, rfl, rfl⟩
    | error e =>
      refine ⟨?_, ?_, rfl⟩
      · simp [outcomeOf, kind_ne_success e]
      · simp [outcomeOf, kind_ne_cancelled e]

/-- Judging a callback records the observation with the result, and counts a failure. -/
theorem judge_observed {stats : Stats} {live : ℕ} {log : List (ℕ × String)}
    (h : stats.policy.Accounts (live + 1) log) (now : ℕ) (o : Observation)
    {result : Result (List Frame)} (hsafe : Result.Safe result) :
    ∃ policy, judge now (some o) result stats = .ok { stats with
        policy
        policyErrors := stats.policyErrors +
          (match result with | .ok _ => false | .error _ => true).toNat } ∧
      policy.Accounts live ((now - o.started, outcomeOf result) :: log) := by
  obtain ⟨policy, hdrop, haccounts⟩ :=
    h.drop now { o with outcome := outcomeOf result } (outcomeOf_known hsafe)
  refine ⟨policy, ?_, haccounts⟩
  unfold judge
  simp only [Observation.finish_eq, hdrop]
  cases result <;> rfl

/-- What an event settles is no abort. -/
theorem settled_safe {config : Config} {d : Driver} {event : Event} (hs : d.Sound config)
    {stop : Bool} (hpossible : event.possible stop) {result : Result (List Frame)}
    (h : settled d event = some result) : Result.Safe result := by
  unfold settled at h
  split at h
  next hphase =>
    rename_i outcome
    obtain rfl := Option.some.inj h
    cases outcome with
    | ok decision => exact Session.complete_safe hs.session.valid decision
    | error e =>
      intro e' he
      obtain rfl := Except.error.inj he
      simpa [Event.possible] using hpossible
  next =>
    obtain rfl := Option.some.inj h
    intro e he
    obtain rfl := Except.error.inj he
    rfl
  next hphase =>
    rename_i w
    split at h
    next d' e hwrite =>
      obtain rfl := Option.some.inj h
      intro e' he
      obtain rfl := Except.error.inj he
      cases w with
      | done =>
        obtain ⟨part, hpart⟩ : ∃ part, (Frame.empty MtaHooks.progress).encode = .ok part :=
          ⟨_, rfl⟩
        simp [Driver.writeFrame, hpart] at hwrite
      | torn n e'' =>
        obtain ⟨part, hpart⟩ : ∃ part, (Frame.empty MtaHooks.progress).encode = .ok part :=
          ⟨_, rfl⟩
        simp only [Driver.writeFrame, hpart] at hwrite
        split at hwrite
        · obtain ⟨-, he⟩ := Prod.mk.inj (Option.some.inj hwrite)
          obtain rfl := Except.error.inj he
          simpa [Event.possible] using hpossible
        · cases hwrite
    next => cases h
  next => cases h

/-- What counting an event comes to. -/
def Counted (policy : Policy) (now : ℕ) (c : ConnectionTask) (event : Event) (stats : Stats)
    (d : Driver) (live : ℕ) (log : List (ℕ × String)) : Prop :=
  ∃ observation op, c.count policy now event stats = .ok (observation, { stats with
      messages := stats.messages + (isMessage c.driver event).toNat
      progress := stats.progress + (isProgress c.driver event).toNat
      policyErrors := stats.policyErrors + (isFailed c.driver event).toNat
      policy := op }) ∧
    Held { c with driver := d, observation } ∧
    op.Accounts (live + d.evaluating.toNat) (c.entries now event ++ log)

section Count

variable {config : Config} {policy : Policy} {c : ConnectionTask} {event : Event} {d : Driver}
variable {stats : Stats} {live : ℕ} {log : List (ℕ × String)}

/-- An event that raises and settles nothing, and sends no keepalive. -/
theorem counted_quiet (now : ℕ) (hheld : c.Held)
    (haccounts : stats.policy.Accounts (live + c.driver.evaluating.toNat) log)
    (hcount : c.count policy now event stats = .ok (c.observation, stats))
    (hraised : raised c.driver event = none) (hsettled : settled c.driver event = none)
    (hprogress : isProgress c.driver event = false)
    (hevaluating : d.evaluating = c.driver.evaluating) :
    Counted policy now c event stats d live log := by
  refine ⟨c.observation, stats.policy, ?_, ⟨?_, hheld.outcome⟩, ?_⟩
  · rw [hcount]
    simp [isMessage, isFailed, hraised, hsettled, hprogress]
  · exact hheld.evaluating.trans hevaluating.symm
  · rw [entries_unsettled now hsettled, hevaluating]
    exact haccounts

/-- An event that settles the callback. -/
theorem counted_settled (now : ℕ) (hheld : c.Held) {result : Result (List Frame)}
    (haccounts : stats.policy.Accounts (live + c.driver.evaluating.toNat) log)
    (hcount : c.count policy now event stats =
      (judge now c.observation result { stats with
        progress := stats.progress + (isProgress c.driver event).toNat }).map (none, ·))
    (hraised : raised c.driver event = none) (hsettled : settled c.driver event = some result)
    (hsafe : Result.Safe result) (hbefore : c.driver.evaluating = true)
    (hafter : d.evaluating = false) : Counted policy now c event stats d live log := by
  obtain ⟨o, ho⟩ := Option.isSome_iff_exists.mp (hheld.evaluating.trans hbefore)
  rw [hbefore] at haccounts
  have haccounts' : ({ stats with
      progress := stats.progress + (isProgress c.driver event).toNat } : Stats).policy.Accounts
        (live + true.toNat) log := haccounts
  obtain ⟨op, hjudge, hop⟩ := judge_observed haccounts' now o hsafe
  refine ⟨none, op, ?_, .none hafter rfl, ?_⟩
  · rw [hcount, ho, hjudge]
    cases result <;> simp [isMessage, isFailed, hraised, hsettled, Except.map]
  · have hentries : c.entries now event = [(now - o.started, outcomeOf result)] := by
      unfold entries
      rw [ho, hsettled]
    rw [hentries, hafter]
    exact hop

/-- A frame. -/
theorem counted_frame {frame : Frame} (now : ℕ) (hs : c.driver.Sound config) (hheld : c.Held)
    (hphase : c.driver.phase = .reading)
    (hlimit : frame.payload.length + 1 ≤ config.limits.frameBytes)
    (haccounts : stats.policy.Accounts (live + c.driver.evaluating.toNat) log) :
    Counted policy now c (.frame frame) stats (c.driver.handle config policy frame) live log := by
  have hidle : c.driver.evaluating = false := by
    unfold Driver.evaluating
    rw [hphase]
  have hnone : c.observation = none := by
    rw [← Option.not_isSome_iff_eq_none, hheld.evaluating, hidle]
    exact Bool.false_ne_true
  have hsettled : settled c.driver (.frame frame) = none := by
    unfold settled
    rw [hphase]
  have hprogress : isProgress c.driver (.frame frame) = false := rfl
  have hafter := Driver.handle_evaluating config policy frame hphase
  rcases hr : Session.receive frame c.driver.session with ⟨r, s⟩
  cases r with
  | error e =>
    have hraised : raised c.driver (.frame frame) = none := by
      rw [Driver.raised_frame frame hphase, hr]
    rw [hraised] at hafter
    refine counted_quiet now hheld haccounts ?_ hraised hsettled hprogress (hafter.trans hidle.symm)
    unfold count
    rw [hphase, hnone]
    simp only [hr]
  | ok step =>
    have hraised : raised c.driver (.frame frame) = step.event := by
      rw [Driver.raised_frame frame hphase, hr]
    rw [hraised] at hafter
    cases he : step.event with
    | none =>
      rw [he] at hraised hafter
      have hcount : c.count policy now (.frame frame) stats = .ok (c.observation, stats) := by
        unfold count
        rw [hphase, hnone]
        simp only [hr, he]
      exact counted_quiet now hheld haccounts hcount hraised hsettled hprogress
        (hafter.trans hidle.symm)
    | some stage =>
      rw [he] at hraised hafter
      have hcount : c.count policy now (.frame frame) stats =
          if stage ∈ policy.stages then
            .ok (some ⟨now, "cancelled"⟩, { stats.countMessage stage with
              policy := ((stats.countMessage stage).policy.begin now).2 })
          else
            (judge now none (completed (.ok {}) s) (stats.countMessage stage)).map (none, ·) := by
        unfold count
        rw [hphase]
        simp only [hr, he]
        rfl
      rw [hidle] at haccounts
      have hentries : c.entries now (.frame frame) = [] := entries_unsettled now hsettled
      by_cases hstage : stage ∈ policy.stages
      · replace hafter : _ = true := hafter.trans (decide_eq_true hstage)
        have hbegin := haccounts.begin now
        refine ⟨some ⟨now, "cancelled"⟩, (stats.policy.begin now).2, ?_, ⟨hafter.symm, ?_⟩, ?_⟩
        · rw [hcount]
          simp only [if_pos hstage, Stats.countMessage_eq, isMessage, isFailed, hraised, hsettled,
            hprogress, Option.some.injEq, Bool.toNat_false, Nat.add_zero]
        · intro o ho
          obtain rfl := Option.some.inj ho
          rfl
        · rw [hentries, hafter]
          exact hbegin
      · replace hafter : _ = false := hafter.trans (decide_eq_false hstage)
        -- The default decision passes, so nothing fails that no policy was asked.
        obtain ⟨_, -, -, -, ha⟩ := Session.receive_ok hr
        obtain ⟨hpending, -⟩ := ha.event he
        have hreach : s.Reachable := by
          have hnext : (c.driver.session.call (.receive frame)).2.Reachable :=
            Machine.Reachable.next hs.session _
          rwa [show (c.driver.session.call (.receive frame)).2 = s from congrArg Prod.snd hr]
            at hnext
        have hlimits : s.limits = config.limits := by
          have hfixed := (hs.session.call_fixed (.receive frame)).1
          rw [show (c.driver.session.call (.receive frame)).2 = s from congrArg Prod.snd hr]
            at hfixed
          exact hfixed.trans hs.limits
        obtain ⟨t, ht⟩ := Session.complete_fallback hreach hpending (by rw [hlimits]; omega) true
        have hcompleted : completed (.ok {}) s = .ok [Session.fallbackFrame true] :=
          congrArg Prod.fst ht
        refine ⟨none, stats.policy, ?_, .none hafter rfl, ?_⟩
        · rw [hcount]
          simp only [if_neg hstage, hcompleted, Stats.countMessage_eq, isMessage, isFailed, hraised,
            hsettled, hprogress, Option.some.injEq, Bool.toNat_false, Nat.add_zero]
          rfl
        · rw [hentries, hafter]
          exact haccounts

/-- **Counting an event.**  It never aborts; it adds to each counter what the event is of its
    kind, and the task then holds an observation exactly if a callback is evaluated. -/
theorem count_spec {stop : Bool} (now : ℕ) (hs : c.driver.Sound config) (hheld : c.Held)
    (hpossible : event.possible stop)
    (hstep : Driver.step config policy c.driver event = some d)
    (haccounts : stats.policy.Accounts (live + c.driver.evaluating.toNat) log) :
    Counted policy now c event stats d live log := by
  cases hphase : c.driver.phase with
  | reading =>
    have hidle : c.driver.evaluating = false := by rw [Driver.evaluating, hphase]
    have hquiet : ∀ result : Result Unit, d = { c.driver with phase := .ended result } →
        c.count policy now event stats = .ok (c.observation, stats) →
        raised c.driver event = none → settled c.driver event = none →
        isProgress c.driver event = false → Counted policy now c event stats d live log := by
      rintro result rfl hcount hraised hsettled hprogress
      exact counted_quiet now hheld haccounts hcount hraised hsettled hprogress hidle.symm
    cases event with
    | frame frame =>
      simp only [Driver.step, hphase] at hstep
      split at hstep
      next hlimit =>
        obtain rfl := Option.some.inj hstep
        exact counted_frame now hs hheld hphase hlimit haccounts
      next => cases hstep
    | stop | endOfInput | readFailed e =>
      simp only [Driver.step, hphase] at hstep
      exact hquiet _ (Option.some.inj hstep).symm (by simp [count, hphase])
        (by simp [raised, hphase]) (by simp [settled, hphase]) rfl
    | _ => simp [Driver.step, hphase] at hstep
  | evaluating stage frames close =>
    have hbefore : c.driver.evaluating = true := by rw [Driver.evaluating, hphase]
    have hraised : raised c.driver event = none := by simp [raised, hphase]
    have hsafe : ∀ {result}, settled c.driver event = some result → Result.Safe result :=
      fun hsettled => settled_safe hs hpossible hsettled
    cases event with
    | evaluated outcome =>
      simp only [Driver.step, hphase] at hstep
      obtain rfl := Option.some.inj hstep
      have hsettled : settled c.driver (.evaluated outcome) =
          some (completed outcome c.driver.session) := by simp [settled, hphase]
      exact counted_settled now hheld haccounts (by simp [count, hphase, isProgress]) hraised
        hsettled (hsafe hsettled) hbefore (Driver.conclude_not_evaluating _ _ _ _ _)
    | deadline =>
      simp only [Driver.step, hphase] at hstep
      obtain rfl := Option.some.inj hstep
      have hsettled : settled c.driver .deadline = some (.error .timeout) := by
        simp [settled, hphase]
      exact counted_settled now hheld haccounts (by simp [count, hphase, isProgress]) hraised
        hsettled (hsafe hsettled) hbefore (Driver.conclude_not_evaluating _ _ _ _ _)
    | tick w =>
      simp only [Driver.step, hphase] at hstep
      split at hstep
      next hinterval =>
        obtain ⟨⟨d₁, r⟩, hwrite, rfl⟩ := Option.map_eq_some_iff.mp hstep
        cases r with
        | ok _ =>
          have hsettled : settled c.driver (.tick w) = none := by simp [settled, hphase, hwrite]
          have hafter : d₁.evaluating = c.driver.evaluating := by
            rw [Driver.evaluating, Driver.evaluating, (Driver.writeFrame_some hwrite).2]
          refine ⟨c.observation, stats.policy, ?_, ⟨hheld.evaluating.trans hafter.symm,
            hheld.outcome⟩, ?_⟩
          · simp [count, hphase, hwrite, isMessage, isFailed, isProgress, hraised, hsettled]
          · rw [entries_unsettled now hsettled, hafter]
            exact haccounts
        | error e =>
          have hsettled : settled c.driver (.tick w) = some (.error e) := by
            simp [settled, hphase, hwrite]
          exact counted_settled now hheld haccounts (by simp [count, hphase, isProgress, hwrite])
            hraised hsettled (hsafe hsettled) hbefore (Driver.conclude_not_evaluating _ _ _ _ _)
      next => cases hstep
    | _ => simp [Driver.step, hphase] at hstep
  | writing frame frames close =>
    have hidle : c.driver.evaluating = false := by rw [Driver.evaluating, hphase]
    cases event with
    | write w =>
      simp only [Driver.step, hphase] at hstep
      obtain ⟨⟨d₁, r⟩, hwrite, rfl⟩ := Option.map_eq_some_iff.mp hstep
      refine counted_quiet now hheld haccounts (by simp [count, hphase]) (by simp [raised, hphase])
        (by simp [settled, hphase]) rfl ?_
      rw [hidle]
      cases r with
      | ok _ => exact Driver.reply_not_evaluating (d := { d₁ with phase := _ }) rfl
      | error e => rfl
    | _ => simp [Driver.step, hphase] at hstep
  | ended result => cases event <;> simp [Driver.step, hphase] at hstep

end Count

end ConnectionTask

end MtaHooks
