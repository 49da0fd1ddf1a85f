import MtaHooks.Bridge.Machine

namespace MtaHooks

/-!
# What a connection waits for

The server alone knows no invocations; it knows the callback a connection waits for, and the
session the policy has been given.  The results here say what one event of the server does to
both, so that the bridge need not look into the driver again.

* `Server.moves_awaited` — a connection that waits goes on waiting for the same callback with the
  same session, or waits no more;
* `Server.takes_outcome` — it takes every outcome;
* `Server.takes_keepalive` — its keepalive can end in every way.
-/

namespace Driver

/-- A connection that evaluates nothing waits for nothing. -/
theorem awaits_eq_none {d : Driver} : d.awaits = none ↔ d.evaluating = false := by
  cases hphase : d.phase <;> simp [awaits, evaluating, hphase]

/-- An outcome ends the wait. -/
theorem awaits_evaluated {config : Config} {policy : Policy} {d d' : Driver}
    {outcome : Result Decision} (h : step config policy d (.evaluated outcome) = some d') :
    d'.awaits = none := by
  generalize hevent : Event.evaluated outcome = event at h
  cases step_moves h with
  | leave hphase => rfl
  | decided hphase _ => exact awaits_eq_none.mpr (conclude_not_evaluating _ _ _ _ _)
  | frame hphase hlimit => cases hevent
  | kept hphase hwrite => cases hevent
  | lost hphase hwrite => cases hevent
  | wrote hphase hwrite => cases hevent
  | broke hphase hwrite => cases hevent

/-- A connection that waits goes on waiting for the same, or waits no more. -/
theorem awaits_moves {config : Config} {policy : Policy} {d d' : Driver} {event : Event}
    {a : Stage × Session} (h : Moves config policy d event d') (ha : d.awaits = some a) :
    d'.awaits = none ∨ d'.awaits = some a := by
  have hreading : d.phase ≠ .reading := by
    intro hphase
    rw [awaits, hphase] at ha
    cases ha
  have hwriting : ∀ frame frames close, d.phase ≠ .writing frame frames close := by
    intro frame frames close hphase
    rw [awaits, hphase] at ha
    cases ha
  cases h with
  | leave hphase => exact absurd hphase hreading
  | frame hphase hlimit => exact absurd hphase hreading
  | decided hphase hevent => exact .inl (awaits_eq_none.mpr (conclude_not_evaluating _ _ _ _ _))
  | kept hphase hwrite =>
    obtain ⟨hsession, hphase'⟩ := writeFrame_some hwrite
    refine .inr ?_
    rw [← ha, awaits, awaits, hphase', hsession]
  | lost hphase hwrite => exact .inl (awaits_eq_none.mpr (conclude_not_evaluating _ _ _ _ _))
  | wrote hphase hwrite => exact absurd hphase (hwriting _ _ _)
  | broke hphase hwrite => exact absurd hphase (hwriting _ _ _)

end Driver

/-- How the write of a keepalive can end: with the whole frame, or with a strict part of it and
    an error that is no panic. -/
def Write.endsKeepalive : Write → Bool
  | .done => true
  | .torn sent e => sent < 5 && !e.isPanic

namespace Server

variable {config : ServerConfig} {policy : Policy} {s t : Server}

/-- A connection that waits is live, and its driver evaluates. -/
theorem awaited_some {n : ℕ} {a : Stage × Session} :
    s.awaited n = some a ↔ ∃ c, s.live n = some c ∧ c.driver.awaits = some a :=
  Option.bind_eq_some_iff

/-- What is awaited depends on the tasks only. -/
theorem awaited_congr (h : t.tasks = s.tasks) (n : ℕ) : t.awaited n = s.awaited n := by
  unfold awaited live
  rw [h]

/-- A task that is replaced is none of the others' business. -/
theorem awaited_set_of_ne {n m : ℕ} {c : ConnectionTask} (h : t.tasks = s.tasks.set n c)
    (hm : m ≠ n) : t.awaited m = s.awaited m := by
  unfold awaited live
  rw [h, List.getElem?_set_ne hm.symm]

/-- A task that is replaced waits for what its driver waits for, while it runs. -/
theorem awaited_set_self {n : ℕ} {c c' : ConnectionTask} (h : t.tasks = s.tasks.set n c')
    (hn : s.tasks[n]? = some c) :
    t.awaited n = if c'.fate = .running then c'.driver.awaits else none := by
  obtain ⟨hlt, -⟩ := List.getElem?_eq_some_iff.mp hn
  unfold awaited live
  rw [h, List.getElem?_set_self hlt, Option.filter_some]
  by_cases hfate : c'.fate = .running
  · rw [if_pos (decide_eq_true hfate), if_pos hfate]
    rfl
  · rw [if_neg (by simpa using hfate), if_neg hfate]
    rfl

/-- A task that is over waits for nothing. -/
theorem awaited_release {n : ℕ} {c : ConnectionTask} {driver : Driver}
    {observation : Option Observation} {fate : Fate} {stats : Stats} (hn : s.tasks[n]? = some c)
    (hfate : fate ≠ .running) :
    (s.release n { driver, observation, fate } stats).awaited n = none :=
  (awaited_set_self rfl hn).trans (if_neg hfate)

/-- A connection that arrives waits for nothing. -/
theorem awaited_take (h : t.tasks = s.tasks ++ [{ driver := .new config.toConfig policy }])
    (n : ℕ) : t.awaited n = s.awaited n := by
  unfold awaited live
  rw [h]
  by_cases hn : n < s.tasks.length
  · rw [List.getElem?_append_left hn]
  · rw [List.getElem?_eq_none (Nat.le_of_not_lt hn),
      List.getElem?_append_right (Nat.le_of_not_lt hn)]
    cases hlast : [({ driver := .new config.toConfig policy } : ConnectionTask)][n -
        s.tasks.length]? with
    | none => rfl
    | some c =>
      obtain rfl := List.mem_singleton.mp (List.mem_of_getElem? hlast)
      rfl

/-- **One event of the server**: it changes what its own connection waits for, and a connection
    that waits goes on waiting for the same or waits no more. -/
theorem moves_awaited {event : ServerEvent} (h : Moves config policy s event t) :
    (∀ m, event.target ≠ some m → t.awaited m = s.awaited m) ∧
      ∀ n a, event.target = some n → s.awaited n = some a →
        t.awaited n = none ∨ t.awaited n = some a := by
  have huntargeted : event.target = none → (∀ m, t.awaited m = s.awaited m) →
      (∀ m, event.target ≠ some m → t.awaited m = s.awaited m) ∧
        ∀ n a, event.target = some n → s.awaited n = some a →
          t.awaited n = none ∨ t.awaited n = some a := by
    intro hnone hsame
    refine ⟨fun m _ => hsame m, fun n a hn => ?_⟩
    rw [hnone] at hn
    cases hn
  cases h with
  | wait elapsed => exact huntargeted rfl (awaited_congr rfl)
  | cancel => exact huntargeted rfl (awaited_congr rfl)
  | unready => exact huntargeted rfl (awaited_congr rfl)
  | overload hserving hpermits => exact huntargeted rfl (awaited_congr rfl)
  | take hserving hpermits => exact huntargeted rfl (awaited_take rfl)
  | fail hserving => exact huntargeted rfl (awaited_congr rfl)
  | leave hserving hstop => exact huntargeted rfl (awaited_congr rfl)
  | drained hserving hidle => exact huntargeted rfl (awaited_congr rfl)
  | deadline hserving hidle => exact huntargeted rfl (awaited_congr rfl)
  | joined hserving hidle => exact huntargeted rfl (awaited_congr rfl)
  | @goes n event c d observation stats hlive hpossible hdriver hcount hphase =>
    obtain ⟨hn, hc⟩ := live_some.mp hlive
    refine ⟨fun m hm => awaited_set_of_ne rfl fun heq => hm (heq ▸ rfl), fun k a hk ha => ?_⟩
    obtain rfl := Option.some.inj hk
    obtain ⟨c', hlive', ha⟩ := awaited_some.mp ha
    obtain rfl := Option.some.inj (hlive.symm.trans hlive')
    rw [awaited_set_self rfl hn, if_pos hc]
    exact Driver.awaits_moves (Driver.step_moves hdriver) ha
  | @returns n event c d observation stats stats' result hlive hpossible hdriver hcount hphase
      hreturned =>
    obtain ⟨hn, -⟩ := live_some.mp hlive
    refine ⟨fun m hm => awaited_set_of_ne rfl fun heq => hm (heq ▸ rfl), fun k a hk _ => .inl ?_⟩
    obtain rfl := Option.some.inj hk
    exact awaited_release hn (by decide)
  | @crash n c stats hlive hevaluating hdropped =>
    obtain ⟨hn, -⟩ := live_some.mp hlive
    refine ⟨fun m hm => awaited_set_of_ne rfl fun heq => hm (heq ▸ rfl), fun k a hk _ => .inl ?_⟩
    obtain rfl := Option.some.inj hk
    exact awaited_release hn (by decide)
  | @abort n c stats hlive hserving hdropped =>
    obtain ⟨hn, -⟩ := live_some.mp hlive
    refine ⟨fun m hm => awaited_set_of_ne rfl fun heq => hm (heq ▸ rfl), fun k a hk _ => .inl ?_⟩
    obtain rfl := Option.some.inj hk
    exact awaited_release hn (by decide)

/-- The policy speaks to a connection by an outcome. -/
theorem isPolicy_connection {n : ℕ} {event : Event}
    (h : (ServerEvent.connection n event).isPolicy = true) :
    ∃ outcome, event = .evaluated outcome := by
  cases event with
  | evaluated outcome => exact ⟨outcome, rfl⟩
  | _ => cases h

/-- An event of the policy ends the wait of its connection. -/
theorem moves_policy {event : ServerEvent} (h : Moves config policy s event t)
    (hpolicy : event.isPolicy = true) {n : ℕ} (htarget : event.target = some n) :
    t.awaited n = none := by
  cases h with
  | goes hlive hpossible hdriver hcount hphase =>
    obtain rfl := Option.some.inj htarget
    obtain ⟨outcome, rfl⟩ := isPolicy_connection hpolicy
    obtain ⟨hn, hc⟩ := live_some.mp hlive
    rw [awaited_set_self rfl hn, if_pos hc]
    exact Driver.awaits_evaluated hdriver
  | returns hlive hpossible hdriver hcount hphase hreturned =>
    obtain rfl := Option.some.inj htarget
    exact awaited_release (live_some.mp hlive).1 (by decide)
  | crash hlive hevaluating hdropped =>
    obtain rfl := Option.some.inj htarget
    exact awaited_release (live_some.mp hlive).1 (by decide)
  | abort hlive hserving hdropped => cases hpolicy
  | wait elapsed => cases hpolicy
  | cancel => cases hpolicy
  | unready => cases hpolicy
  | overload hserving hpermits => cases hpolicy
  | take hserving hpermits => cases hpolicy
  | fail hserving => cases hpolicy
  | leave hserving hstop => cases hpolicy
  | drained hserving hidle => cases hpolicy
  | deadline hserving hidle => cases hpolicy
  | joined hserving hidle => cases hpolicy

/-- The outcome of a policy is about its own connection. -/
theorem ofPolicy_target (n : ℕ) (result : Result Decision) :
    (ServerEvent.ofPolicy n result).target = some n ∧
      (ServerEvent.ofPolicy n result).isPolicy = true := by
  unfold ServerEvent.ofPolicy
  split
  next => exact ⟨rfl, rfl⟩
  next => split <;> exact ⟨rfl, rfl⟩

/-- A result that is no panic is an outcome. -/
theorem ofPolicy_safe (n : ℕ) {result : Result Decision} (h : result.Safe) :
    ServerEvent.ofPolicy n result = .connection n (.evaluated result) := by
  unfold ServerEvent.ofPolicy
  split
  next => rfl
  next e => rw [if_neg (by rw [h e rfl]; exact Bool.false_ne_true)]

/-- A connection that waits evaluates that callback with that session. -/
theorem awaits_phase {d : Driver} {stage : Stage} {session : Session}
    (h : d.awaits = some (stage, session)) :
    d.session = session ∧ ∃ frames close, d.phase = .evaluating stage frames close := by
  unfold Driver.awaits at h
  split at h
  next hphase =>
    obtain ⟨rfl, rfl⟩ := Prod.mk.inj (Option.some.inj h)
    exact ⟨rfl, _, _, hphase⟩
  next => cases h

/-- A connection that waits takes every outcome, and no other connection notices. -/
theorem takes_outcome {past : List ServerEvent} (h : Inv config policy s past) {n : ℕ}
    {stage : Stage} {session : Session} (ha : s.awaited n = some (stage, session))
    {outcome : Result Decision} (hsafe : outcome.Safe) :
    ∃ t, next config policy s (.connection n (.evaluated outcome)) = some t ∧
      (∃ d frames close, (s.live n).map (·.driver) = some d ∧
        d.phase = .evaluating stage frames close ∧ d.session = session ∧
        t.tasks[n]?.map (·.driver) = some (d.conclude config.failOpen frames close outcome)) ∧
      ∀ k ≠ n, t.tasks[k]? = s.tasks[k]? := by
  obtain ⟨c, hlive, hawaits⟩ := awaited_some.mp ha
  obtain ⟨hsession, frames, close, hphase⟩ := awaits_phase hawaits
  have hpossible : (Event.evaluated outcome).possible s.stop = true := by
    cases outcome with
    | ok decision => rfl
    | error e =>
      show (!e.isPanic) = true
      rw [hsafe e rfl]
      rfl
  have hdriver : Driver.step config.toConfig policy c.driver (.evaluated outcome) =
      some (c.driver.conclude config.failOpen frames close outcome) := by
    unfold Driver.step
    rw [hphase]
  obtain ⟨t, ht, hn, hothers⟩ := connection_goes h hlive hpossible hdriver
  refine ⟨t, by rw [next, ht]; rfl, ⟨c.driver, frames, close, ?_, hphase, hsession, hn⟩, hothers⟩
  rw [hlive]
  rfl

/-- A connection that waits takes every end of a keepalive; a whole one leaves it waiting. -/
theorem takes_keepalive {past : List ServerEvent} (h : Inv config policy s past)
    (hinterval : config.progressInterval = true) {n : ℕ} {a : Stage × Session}
    (ha : s.awaited n = some a) {write : Write} (hwrite : write.endsKeepalive = true) :
    ∃ t, next config policy s (.connection n (.tick write)) = some t ∧
      (write = .done → t.awaited n = some a) := by
  obtain ⟨c, hlive, hawaits⟩ := awaited_some.mp ha
  obtain ⟨-, frames, close, hphase⟩ := awaits_phase hawaits
  obtain ⟨part, hpart⟩ : ∃ part : Bytes, (Frame.empty progress).encode = .ok part ∧
      part.length = 5 := ⟨_, rfl, rfl⟩
  cases write with
  | done =>
    have hdriver : Driver.step config.toConfig policy c.driver (.tick .done) =
        some { c.driver with sent := c.driver.sent ++ part } := by
      unfold Driver.step
      simp [hphase, hinterval, Driver.writeFrame, hpart.1]
    obtain ⟨t, ht, -, -⟩ := connection_goes h hlive rfl hdriver
    have hnext : next config policy s (.connection n (.tick .done)) = some t := by
      rw [next, ht]
      rfl
    refine ⟨t, hnext, fun _ => ?_⟩
    cases next_moves hnext with
    | goes hlive' hpossible hdriver' hcount hphase' =>
      obtain rfl := Option.some.inj (hlive.symm.trans hlive')
      obtain rfl := Option.some.inj (hdriver.symm.trans hdriver')
      obtain ⟨hn, hc⟩ := live_some.mp hlive
      rw [awaited_set_self rfl hn, if_pos hc]
      exact hawaits
    -- A connection that has written a whole keepalive has not returned.
    | returns hlive' hpossible hdriver' hcount hphase' hreturned =>
      obtain rfl := Option.some.inj (hlive.symm.trans hlive')
      obtain rfl := Option.some.inj (hdriver.symm.trans hdriver')
      cases hphase.symm.trans hphase'
  | torn sent e =>
    obtain ⟨hsent, hsafe⟩ : sent < 5 ∧ e.isPanic = false := by
      simpa [Write.endsKeepalive] using hwrite
    have hdriver : ∃ d, Driver.step config.toConfig policy c.driver (.tick (.torn sent e)) =
        some d := by
      unfold Driver.step
      simp [hphase, hinterval, Driver.writeFrame, hpart.1, hpart.2, hsent]
    obtain ⟨d, hdriver⟩ := hdriver
    obtain ⟨t, ht, -, -⟩ := connection_goes h hlive (by simp [Event.possible, hsafe]) hdriver
    refine ⟨t, ?_, fun hdone => by cases hdone⟩
    rw [next, ht]
    rfl

end Server

end MtaHooks
