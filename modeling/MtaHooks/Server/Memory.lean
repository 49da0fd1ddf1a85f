import MtaHooks.Server.Interleaving
import MtaHooks.Session.Bounds

namespace MtaHooks

/-!
# The budgets of the server

What the running connections hold of their messages, envelopes and macros, whatever the MTAs
send and in whatever order.  These are the three budgets of the settings; the HELO, the client
and the frames of a reply are not among them.

* `Driver.Contained` — the session of a connection that runs is within its limits;
* `Server.memory_bounded` — each connection is within each budget, and all connections together
  are within their number times the budgets.
-/

namespace Session

/-- The bytes of the stored message, envelope and macros. -/
def held (s : Session) : ℕ := s.stored + s.message.envelopeStored + s.macroBytes

/-- The most a session may hold of the three. -/
def mostHeld (limits : Limits) : ℕ :=
  limits.messageBytes + limits.envelopeBytes + limits.macroBytes

/-- What a session holds is within the limits, one by one. -/
structure Within (s : Session) (limits : Limits) : Prop where
  message : s.stored ≤ limits.messageBytes
  envelope : s.message.envelopeStored ≤ limits.envelopeBytes
  macros : s.macroBytes ≤ limits.macroBytes
  headers : s.message.headers.length ≤ limits.headers
  recipients : s.message.recipients.length ≤ limits.recipients
  raw : s.pending = some .endMessage → s.rawMessage.length ≤ limits.messageBytes

/-- The three budgets add up. -/
theorem Within.held_le {s : Session} {limits : Limits} (h : s.Within limits) :
    s.held ≤ mostHeld limits :=
  Nat.add_le_add (Nat.add_le_add h.message h.envelope) h.macros

/-- A session whose counters are exact is within its limits. -/
theorem Bounded.within {s : Session} {log : List Exchange} {limits : Limits}
    (h : Bounded (s, log)) (hlimits : s.limits = limits) : s.Within limits := by
  subst hlimits
  have hmessage : s.stored ≤ s.limits.messageBytes := h.counted.trans_le h.message
  obtain ⟨hstored, hfits⟩ := h.envelope
  refine ⟨hmessage, hstored.trans hfits, h.macros, h.headers, h.recipients, fun hpending => ?_⟩
  have hraw := length_rawMessage_le (h.valid.awaits _ hpending)
  have hcounted := h.counted
  dsimp only at hraw hcounted
  omega

/-- An accepted frame keeps the counters exact. -/
theorem receive_bounded {s t : Session} {f : Frame} {step : Step} {log : List Exchange}
    (hs : Bounded (s, log)) (h : receive f s = (.ok step, t)) : ∃ log', Bounded (t, log') := by
  obtain ⟨c, hc, hpending, -, ha⟩ := receive_ok h
  have hadvances : Advances s log (t, { command := c, options := t.options, step } :: log) :=
    .accepted (Command.decode_eq_ok.mp hc).1 hpending ha
  exact ⟨_, hadvances.bounded hs⟩

/-- A decision that is refused changes nothing. -/
theorem complete_bounded {s t : Session} {d : Decision} {r : Result (List Frame)}
    {log : List Exchange} (hs : Bounded (s, log)) (h : complete d s = (r, t)) :
    ∃ log', Bounded (t, log') := by
  cases r with
  | ok frames =>
    obtain ⟨stage, hcompletes⟩ := complete_ok h
    have hadvances : Advances s log (t, Exchange.decide d frames log) := .decided hcompletes
    exact ⟨_, hadvances.bounded hs⟩
  | error e =>
    obtain rfl := complete_error h
    exact ⟨log, hs⟩

end Session

namespace Driver

/-- The session of a connection that runs is within its limits; what is left of one that has
    failed does not matter. -/
def Contained (d : Driver) : Prop :=
  (∀ result, d.phase ≠ .ended result) → ∃ log, Session.Bounded (d.session, log)

/-- The reply to a callback keeps the session within its limits. -/
theorem resolve_bounded {failOpen : Bool} {outcome : Result Decision} {s t : Session}
    {r : Result (List Frame)} {log : List Exchange} (hs : Session.Bounded (s, log))
    (h : resolve failOpen outcome s = (r, t)) : ∃ log', Session.Bounded (t, log') := by
  unfold resolve at h
  cases outcome with
  | error e => exact Session.complete_bounded hs h
  | ok decision =>
    dsimp only at h
    rcases hr : Session.complete decision s with ⟨first, u⟩
    rw [hr] at h
    obtain ⟨log', hu⟩ := Session.complete_bounded hs hr
    cases first with
    | ok frames =>
      obtain ⟨-, rfl⟩ := Prod.mk.inj h
      exact ⟨log', hu⟩
    | error e => exact Session.complete_bounded hu h

/-- A connection that composes its reply is contained. -/
theorem conclude_contained (failOpen : Bool) {d : Driver} (frames : List Frame) (close : Bool)
    (outcome : Result Decision) {log : List Exchange}
    (hd : Session.Bounded (d.session, log)) :
    (d.conclude failOpen frames close outcome).Contained := by
  intro _
  unfold conclude
  rcases hr : resolve failOpen outcome d.session with ⟨r, t⟩
  obtain ⟨log', ht⟩ := resolve_bounded hd hr
  cases r with
  | ok replies => exact ⟨log', ht⟩
  | error e => exact ⟨log', ht⟩

/-- A connection that takes a frame is contained. -/
theorem handle_contained (config : Config) (policy : Policy) {d : Driver} (frame : Frame)
    {log : List Exchange} (hd : Session.Bounded (d.session, log)) :
    (d.handle config policy frame).Contained := by
  unfold handle
  rcases hr : Session.receive frame d.session with ⟨r, t⟩
  cases r with
  | error e => exact fun hrunning => absurd rfl (hrunning (.error e))
  | ok step =>
    obtain ⟨log', ht⟩ := Session.receive_bounded hd hr
    dsimp only
    cases step.event with
    | none => exact fun _ => ⟨log', ht⟩
    | some stage =>
      dsimp only
      split
      · exact fun _ => ⟨log', ht⟩
      · exact conclude_contained _ _ _ _ ht

/-- **One event** keeps a connection that goes on within its limits. -/
theorem Contained.moves {config : Config} {policy : Policy} {d d' : Driver} {event : Event}
    (h : d.Contained) (hmoves : Moves config policy d event d') : d'.Contained := by
  have hrunning : ∀ {phase}, d.phase = phase → (∀ result, phase ≠ .ended result) →
      ∃ log, Session.Bounded (d.session, log) :=
    fun hphase hne => h fun result hend => hne result (hphase.symm.trans hend)
  have hwritten : ∀ {d₁ frame w r phase}, d.writeFrame frame w = some (d₁, r) →
      d.phase = phase → (∀ result, phase ≠ .ended result) →
      ∃ log, Session.Bounded (d₁.session, log) := by
    intro d₁ frame w r phase hwrite hphase hne
    rw [(writeFrame_some hwrite).1]
    exact hrunning hphase hne
  cases hmoves with
  | leave hphase => exact fun hgoing => absurd rfl (hgoing _)
  | frame hphase hlimit =>
    obtain ⟨log, hd⟩ := hrunning hphase (by simp)
    exact handle_contained config policy _ hd
  | decided hphase hevent =>
    obtain ⟨log, hd⟩ := hrunning hphase (by simp)
    exact conclude_contained _ _ _ _ hd
  | kept hphase hwrite => exact fun _ => hwritten hwrite hphase (by simp)
  | lost hphase hwrite =>
    obtain ⟨log, hd⟩ := hwritten hwrite hphase (by simp)
    exact conclude_contained _ _ _ _ hd
  | wrote hphase hwrite =>
    obtain ⟨log, hd⟩ := hwritten hwrite hphase (by simp)
    exact fun _ => ⟨log, hd⟩
  | broke hphase hwrite => exact fun hgoing => absurd rfl (hgoing _)

/-- **Every connection is contained**, in every state of its run. -/
theorem Reaches.contained {config : Config} {policy : Policy} {events : List Event} {d : Driver}
    (h : Reaches config policy events d) : d.Contained := by
  have hnew : (new config policy).Contained := by
    intro _
    have hinitial : (new config policy).session.Initial := ⟨_, _, _, _, rfl⟩
    exact ⟨[], hinitial.bounded⟩
  exact Machine.exec_invariant_on h hnew fun _ _ _ _ hstep hs => hs.moves (step_moves hstep)

end Driver

namespace Server

open ConnectionTask ServerEvent

/-- A connection that runs is within the limits of the server. -/
theorem within_of_running {config : ServerConfig} {policy : Policy} {s : Server}
    {past : List ServerEvent} (h : Inv config policy s past) {c : ConnectionTask}
    (hc : c ∈ s.tasks) (hrunning : c.fate = .running) :
    c.driver.session.Within config.limits := by
  obtain ⟨n, hn⟩ := List.getElem?_of_mem hc
  have hreaches : Driver.Reaches config.toConfig policy (ofConnection past n) c.driver :=
    h.pooled.runs.ends n c.driver (by rw [List.getElem?_map, hn]; rfl)
  have hgoes := (h.pooled.settled c hc).running hrunning
  obtain ⟨log, hbounded⟩ := hreaches.contained hgoes
  exact hbounded.within hreaches.sound.limits

/-- **The budgets of the server.**  In every interleaving of whatever the MTAs send: every running
    connection is within each of its limits, for the bytes of its message, its envelope and its
    macros and for the number of its headers and recipients; the raw message it hands to the
    policy is within the message limit; and all of them together hold no more than
    `max_connections` times the three budgets. -/
theorem memory_bounded {config : ServerConfig} {policy : Policy} {ready : Bool}
    {events : List ServerEvent} {s : Server} (h : Reaches config policy ready events s) :
    (∀ c ∈ s.tasks, c.fate = .running → c.driver.session.Within config.limits) ∧
    ((s.tasks.filter isRunning).map fun c => c.driver.session.held).sum ≤
      config.maxConnections * Session.mostHeld config.limits := by
  have hinv := h.inv
  refine ⟨fun c hc hrunning => within_of_running hinv hc hrunning, ?_⟩
  have hsum : ((s.tasks.filter isRunning).map fun c => c.driver.session.held).sum ≤
      (s.tasks.filter isRunning).length * Session.mostHeld config.limits := by
    rw [← List.length_map fun c : ConnectionTask => c.driver.session.held]
    refine List.sum_le_card_nsmul _ _ fun n hn => ?_
    obtain ⟨c, hc, rfl⟩ := List.mem_map.mp hn
    obtain ⟨hmem, hrunning⟩ := List.mem_filter.mp hc
    exact (within_of_running hinv hmem (of_decide_eq_true hrunning)).held_le
  have hpermits := hinv.pooled.permits
  rw [List.countP_eq_length_filter] at hpermits
  have hfew : (s.tasks.filter isRunning).length ≤ config.maxConnections := by omega
  exact hsum.trans (Nat.mul_le_mul_right _ hfew)

/-- One connection holds what one connection may hold. -/
theorem memory_bounded_at_drain :
    ((sampleServer.tasks.filter isRunning).map fun c => c.driver.session.held).sum ≤
      1 * Session.mostHeld {} :=
  (memory_bounded sampleServer_reaches).2

end Server

end MtaHooks
