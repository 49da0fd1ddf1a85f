import MtaHooks.Session.Calls

namespace MtaHooks

open FallibleState

/-!
# The representation invariant of a session

The session of the source is a record of options and lists that are set and cleared by callbacks
in a fixed order; nothing in its type says which of them belong together.

`Session.Valid` says which fields are set in which state.  Every reachable session is valid
(`Reachable.valid`), also after calls that return an error.
-/

/-- The transaction has a sender. -/
def State.hasSender : State → Bool
  | .mail | .recipients | .data | .headers | .body => true
  | _ => false

/-- The transaction has a recipient. -/
def State.hasRecipient : State → Bool
  | .recipients | .data | .headers | .body => true
  | _ => false

/-- The SMTP connection is known. -/
def State.hasConnection : State → Bool
  | .ready | .mail | .recipients | .data | .headers | .body | .stopped => true
  | _ => false

/-- The state in which a callback waits for its decision. -/
def Stage.awaits : Stage → State
  | .connect | .helo => .ready
  | .mail => .mail
  | .recipient => .recipients
  | .endMessage => .body

namespace Session

/-- The fields agree with the state. -/
structure Valid (s : Session) : Prop where
  options : s.options.isSome ↔ s.state ≠ .initial
  noConnection : s.state = .initial ∨ s.state = .negotiated → s.connection = none
  connection : s.state.hasConnection → s.connection.isSome
  sender : s.message.sender.isSome = s.state.hasSender
  recipients : s.message.recipients ≠ [] ↔ s.state.hasRecipient
  headers : s.message.headers ≠ [] → s.state = .headers ∨ s.state = .body
  body : s.message.body ≠ [] → s.state = .body
  awaits : ∀ stage, s.pending = some stage → s.state = stage.awaits
  subscribed : ∀ stage, s.pending = some stage → stage ≠ .endMessage → stage ∈ s.stages

/-- Validity is a matter of the view. -/
theorem Valid.of_sameView {s t : Session} (h : SameView s t) (hs : Valid s) : Valid t where
  options := by rw [h.options, h.state]; exact hs.options
  noConnection := by rw [h.state, h.connection]; exact hs.noConnection
  connection := by rw [h.state, h.connection]; exact hs.connection
  sender := by rw [h.sender, h.state]; exact hs.sender
  recipients := by rw [h.recipients, h.state]; exact hs.recipients
  headers := by rw [h.headers, h.state]; exact hs.headers
  body := by rw [h.body, h.state]; exact hs.body
  awaits := by rw [h.pending, h.state]; exact hs.awaits
  subscribed := by rw [h.pending, h.stages]; exact hs.subscribed

/-- The message of a session without transaction. -/
def Message.Empty (m : Message) : Prop :=
  m.sender = none ∧ m.recipients = [] ∧ m.headers = [] ∧ m.body = []

/-- Outside a transaction the message is empty. -/
theorem Valid.message_empty {s : Session} (h : Valid s) (hstate : s.state.hasSender = false) :
    Message.Empty s.message := by
  have hsender := h.sender
  have hrecipients := h.recipients
  have hheaders := h.headers
  have hbody := h.body
  unfold Message.Empty
  cases hs : s.state <;> simp_all [State.hasSender, State.hasRecipient]

/-- A session without transaction and callback is valid when its connection is. -/
theorem Valid.idle {s : Session} (hmessage : Message.Empty s.message) (hpending : s.pending = none)
    (hstate : s.state.hasSender = false) (hoptions : s.options.isSome ↔ s.state ≠ .initial)
    (hnone : s.state = .initial ∨ s.state = .negotiated → s.connection = none)
    (hsome : s.state.hasConnection → s.connection.isSome) : Valid s where
  options := hoptions
  noConnection := hnone
  connection := hsome
  sender := by rw [hmessage.1, hstate]; rfl
  recipients := by
    rw [hmessage.2.1]
    cases hs : s.state <;> simp_all [State.hasSender, State.hasRecipient]
  headers := by rw [hmessage.2.2.1]; exact fun h => absurd rfl h
  body := by rw [hmessage.2.2.2]; exact fun h => absurd rfl h
  awaits := by rw [hpending]; exact fun _ h => nomatch h
  subscribed := by rw [hpending]; exact fun _ h => nomatch h

/-- A session in a transaction without callback is valid when its message is. -/
theorem Valid.active {s : Session} (hstate : s.state.hasSender) (hpending : s.pending = none)
    (hoptions : s.options.isSome) (hconnection : s.connection.isSome)
    (hsender : s.message.sender.isSome)
    (hrecipients : s.message.recipients ≠ [] ↔ s.state.hasRecipient)
    (hheaders : s.message.headers ≠ [] → s.state = .headers ∨ s.state = .body)
    (hbody : s.message.body ≠ [] → s.state = .body) : Valid s where
  options := ⟨fun _ h => by rw [h] at hstate; exact absurd hstate (by decide), fun _ => hoptions⟩
  noConnection := by rintro (h | h) <;> rw [h] at hstate <;> exact nomatch hstate
  connection := fun _ => hconnection
  sender := by rw [hsender, hstate]
  recipients := hrecipients
  headers := hheaders
  body := hbody
  awaits := by rw [hpending]; exact fun _ h => nomatch h
  subscribed := by rw [hpending]; exact fun _ h => nomatch h

/-- In a transaction, what was negotiated, the client and the sender are known. -/
theorem Valid.known {s : Session} (h : Valid s) (hstate : s.state.hasSender) :
    s.options.isSome ∧ s.connection.isSome ∧ s.message.sender.isSome := by
  refine ⟨h.options.mpr fun hi => ?_, h.connection ?_, by rw [h.sender, hstate]⟩
  · rw [hi] at hstate; exact nomatch hstate
  · cases hs : s.state <;> simp_all [State.hasSender, State.hasConnection]

/-- The end of a transaction leaves an empty message. -/
theorem resetMessage_empty (s : Session) : Message.Empty s.resetMessage.message :=
  ⟨rfl, rfl, rfl, rfl⟩

/-- A new session is valid. -/
theorem Initial.valid {s : Session} (h : Initial s) : Valid s := by
  obtain ⟨limits, stages, wantedActions, macroLists, rfl⟩ := h
  exact .idle ⟨rfl, rfl, rfl, rfl⟩ rfl rfl (by simp [new, requestMacros]) (fun _ => rfl)
    (by simp [new, requestMacros, State.hasConnection])

/-- Dropping the transaction of a session in `ready` keeps it valid. -/
theorem Valid.reset {s : Session} (hready : s.state = .ready) (h : Valid s) :
    Valid s.resetMessage :=
  .idle s.resetMessage_empty rfl (by rw [resetMessage_state, hready]; rfl) h.options
    h.noConnection h.connection

/-! ### Accepted frames -/

/-- Raising the callback of a command in the state that awaits it keeps a session valid. -/
theorem Valid.awaiting {u : Session} {c : Command} (h : Valid u)
    (hstate : ∀ stage, c.stage = some stage → u.state = stage.awaits) : Valid (u.awaiting c) := by
  unfold Session.awaiting
  cases hr : raised u.stages c.stage with
  | none => exact h
  | some stage =>
    obtain ⟨hc, hsub⟩ := raised_eq_some.mp hr
    refine { h with awaits := ?_, subscribed := ?_ }
    · intro stage' hs
      obtain rfl := Option.some.inj hs
      exact hstate stage hc
    · intro stage' hs hne
      obtain rfl := Option.some.inj hs
      exact hsub.resolve_left hne

/-- The state an arm ends in awaits the callback of its command. -/
theorem Performs.awaits {s u : Session} {c : Command} (h : Performs s c u) {stage : Stage}
    (hstage : c.stage = some stage) : u.state = stage.awaits := by
  cases h <;> cases hstage <;> first | rfl | assumption

/-- No arm raises a callback by itself. -/
theorem Performs.pending {s u : Session} {c : Command} (h : Performs s c u)
    (hpending : s.pending = none) : u.pending = none := by
  cases h <;> first | rfl | exact hpending

/-- **The arm of a command keeps a session valid.** -/
theorem Performs.valid {s u : Session} {c : Command} (h : Performs s c u) (hs : Valid s)
    (hpending : s.pending = none) (hinit : s.state ≠ .initial) : Valid u := by
  have hoptions : s.options.isSome := hs.options.mpr hinit
  cases h with
  | connect hstate =>
    exact .idle (hs.message_empty (by rw [hstate]; rfl)) hpending rfl (by simpa using hoptions)
      (by simp) fun _ => rfl
  | helo hstate =>
    have hidle : s.state.hasSender = false := by rw [hstate]; rfl
    exact .idle (hs.message_empty hidle) hpending hidle hs.options hs.noConnection hs.connection
  | mail hstate hbudget =>
    have hconnection : s.connection.isSome := hs.connection (by rw [hstate]; rfl)
    exact .active rfl rfl hoptions hconnection rfl (by simp [State.hasRecipient])
      (fun h => absurd rfl h) fun h => absurd rfl h
  | recipient hstate hbudget hcount =>
    have hearly : s.state.hasSender ∧ s.state ≠ .headers ∧ s.state ≠ .body := by
      rcases hstate with h | h <;> rw [h] <;> decide
    obtain ⟨hsender, hheaders, hbody⟩ := hearly
    obtain ⟨-, hconnection, hfrom⟩ := hs.known hsender
    refine .active rfl hpending hoptions hconnection hfrom ?_ (fun h => ?_) fun h => ?_
    · simp [State.hasRecipient]
    · exact absurd (hs.headers h) (by simp [hheaders, hbody])
    · exact absurd (hs.body h) hbody
  | data hstate =>
    obtain ⟨-, hconnection, hfrom⟩ := hs.known (by rw [hstate]; rfl)
    refine .active rfl hpending hoptions hconnection hfrom ?_ (fun h => ?_) fun h => ?_
    · simpa [hstate, State.hasRecipient] using hs.recipients
    · simpa [hstate] using hs.headers h
    · simpa [hstate] using hs.body h
  | header hstate hcount hbudget =>
    have hlate : s.state.hasSender ∧ s.state.hasRecipient ∧ s.state ≠ .body := by
      rcases hstate with h | h <;> rw [h] <;> decide
    obtain ⟨hsender, hrecipient, hbody⟩ := hlate
    obtain ⟨-, hconnection, hfrom⟩ := hs.known hsender
    refine .active rfl hpending hoptions hconnection hfrom ?_ (fun _ => .inl rfl) fun h => ?_
    · simpa [State.hasRecipient] using hs.recipients.mpr hrecipient
    · exact absurd (hs.body h) hbody
  | endHeaders hstate hbudget =>
    have hlate : s.state.hasSender ∧ s.state.hasRecipient := by
      rcases hstate with h | h <;> rw [h] <;> decide
    obtain ⟨-, hconnection, hfrom⟩ := hs.known hlate.1
    refine .active rfl hpending hoptions hconnection hfrom ?_ (fun _ => .inr rfl) fun _ => rfl
    simpa [State.hasRecipient] using hs.recipients.mpr hlate.2
  | body hstate hbudget =>
    have hsender : s.state.hasSender := by rw [hstate]; rfl
    obtain ⟨-, hconnection, hfrom⟩ := hs.known hsender
    exact .active hsender hpending hoptions hconnection hfrom hs.recipients hs.headers
      fun _ => hstate
  | endMessage hstate => exact { hs with }
  | abort =>
    by_cases hc : s.connection.isSome ∧ s.state ≠ .stopped
    · rw [if_pos hc]
      exact .idle ⟨rfl, rfl, rfl, rfl⟩ rfl rfl (by simpa using hoptions) (by simp) fun _ => hc.1
    · rw [if_neg hc]
      have hidle : s.state.hasSender = false := by
        by_contra hsender
        obtain ⟨-, hconnection, -⟩ := hs.known (by simpa using hsender)
        refine hc ⟨hconnection, fun hstop => ?_⟩
        rw [hstop] at hsender
        exact hsender rfl
      exact .idle ⟨rfl, rfl, rfl, rfl⟩ rfl hidle hs.options hs.noConnection hs.connection
  | quit =>
    exact .idle ⟨rfl, rfl, rfl, rfl⟩ rfl rfl (by simpa using hoptions) (by simp)
      fun h => nomatch h
  | quitNewConnection =>
    exact .idle ⟨rfl, rfl, rfl, rfl⟩ rfl rfl (by simpa using hoptions) (fun _ => rfl)
      fun h => nomatch h
  | unknown => exact { hs with }

/-- **Accepted frames keep a session valid.** -/
theorem Accepts.valid {s t : Session} {c : Command} {step : Step} (h : Accepts s c step t)
    (hs : Valid s) (hpending : s.pending = none) : Valid t := by
  cases h with
  | negotiate hstate hversion hreply =>
    exact .idle (hs.message_empty (by rw [hstate]; rfl)) hpending rfl (by simp)
      (fun _ => hs.noConnection (.inl hstate)) fun h => nomatch h
  | macros hstate hbudget => exact { hs with }
  | perform hstate hperforms =>
    exact (hperforms.valid hs hpending hstate).awaiting fun _ => hperforms.awaits

/-! ### Decisions -/

/-- A decision keeps a session valid. -/
theorem settle_valid {s : Session} {stage : Stage} (v : Verdict) (hpending : s.pending = some stage)
    (hs : Valid s) : Valid (settle stage v s) := by
  have hstate := hs.awaits stage hpending
  have hoptions : s.options.isSome := by
    rw [hs.options, hstate]
    cases stage <;> simp [Stage.awaits]
  have hconnection : s.connection.isSome := hs.connection (by rw [hstate]; cases stage <;> rfl)
  have hdone : Valid { s with pending := none } :=
    { hs with
      awaits := fun _ h => nomatch h
      subscribed := fun _ h => nomatch h }
  unfold settle
  by_cases hshut : v = .shutdown
  · rw [if_pos hshut]
    exact .idle ⟨rfl, rfl, rfl, rfl⟩ rfl rfl (by simpa using hoptions) (by simp)
      fun _ => hconnection
  rw [if_neg hshut]
  by_cases hrcpt : rejected v ∧ stage = .recipient
  · rw [if_pos hrcpt]
    have hrecipients : s.state = .recipients := by rw [hstate, hrcpt.2]; rfl
    obtain ⟨-, -, hfrom⟩ := hs.known (by rw [hrecipients]; rfl)
    have hheaders : s.message.headers = [] := by
      by_contra h
      simpa [hrecipients] using hs.headers h
    have hbody : s.message.body = [] := by
      by_contra h
      simpa [hrecipients] using hs.body h
    cases hleft : s.message.recipients.dropLast with
    | nil =>
      exact .active rfl rfl hoptions hconnection hfrom (by simp [State.hasRecipient])
        (absurd hheaders) (absurd hbody)
    | cons recipient rest =>
      exact .active rfl rfl hoptions hconnection hfrom (by simp [State.hasRecipient])
        (absurd hheaders) (absurd hbody)
  rw [if_neg hrcpt]
  by_cases hstop : rejected v ∧ (stage = .connect ∨ stage = .helo)
  · rw [if_pos hstop]
    have hidle : s.state.hasSender = false := by
      rw [hstate]
      rcases hstop.2 with h | h <;> rw [h] <;> rfl
    exact .idle (hs.message_empty hidle) rfl rfl (by simpa using hoptions) (by simp)
      fun _ => hconnection
  rw [if_neg hstop]
  split
  · exact .idle ⟨rfl, rfl, rfl, rfl⟩ rfl rfl (by simpa using hoptions) (by simp)
      fun _ => hconnection
  · exact hdone

/-- **Every reachable session is valid**, also after calls that return an error. -/
theorem Reachable.valid {s : Session} (h : Reachable s) : Valid s := by
  have hstep : ∀ s i, Valid s → Valid (call s i).2 := fun _ i hs =>
    call_preserves (fun hv => hv.options.mpr) (fun h hv => hv.of_sameView h) Valid.reset
      (fun hpending _ ha hv => ha.valid hv hpending) settle_valid hs i
  refine Machine.Reachable.invariant ?_ hstep h
  exact fun _ => Initial.valid

/-! ### The fixed fields -/

/-- No command changes the limits or the stages. -/
theorem Performs.fixed {s u : Session} {c : Command} (h : Performs s c u) :
    u.limits = s.limits ∧ u.stages = s.stages := by
  cases h <;> exact ⟨rfl, rfl⟩

/-- To await a decision changes neither. -/
theorem awaiting_fixed (u : Session) (c : Command) :
    (u.awaiting c).limits = u.limits ∧ (u.awaiting c).stages = u.stages := by
  unfold awaiting
  split <;> exact ⟨rfl, rfl⟩

/-- An accepted command changes neither. -/
theorem Accepts.fixed {s t : Session} {c : Command} {step : Step} (h : Accepts s c step t) :
    t.limits = s.limits ∧ t.stages = s.stages := by
  cases h with
  | negotiate _ _ _ => exact ⟨rfl, rfl⟩
  | macros _ _ => exact ⟨rfl, rfl⟩
  | @perform _ u _ hperforms =>
    obtain ⟨hl, hs⟩ := hperforms.fixed
    obtain ⟨hl', hs'⟩ := awaiting_fixed u c
    exact ⟨hl'.trans hl, hs'.trans hs⟩

/-- A decision changes neither. -/
theorem settle_fixed (stage : Stage) (v : Verdict) (s : Session) :
    (settle stage v s).limits = s.limits ∧ (settle stage v s).stages = s.stages := by
  unfold settle
  dsimp only
  split_ifs <;> exact ⟨rfl, rfl⟩

/-- A valid session with the given limits and subscription. -/
private def ValidWith (limits : Limits) (stages : List Stage) (s : Session) : Prop :=
  Valid s ∧ s.limits = limits ∧ s.stages = stages

/-- Each call keeps a session valid, with its settings. -/
private theorem ValidWith.call {limits : Limits} {stages : List Stage} {s : Session}
    (h : ValidWith limits stages s) (i : Call) : ValidWith limits stages (s.call i).2 := by
  refine call_preserves (fun hv => hv.1.options.mpr) ?_ ?_ ?_ ?_ h i
  · rintro s t hview ⟨hv, hl, hs⟩
    exact ⟨hv.of_sameView hview, hview.limits.trans hl, hview.stages.trans hs⟩
  · rintro s hready ⟨hv, hl, hs⟩
    exact ⟨hv.reset hready, hl, hs⟩
  · rintro s c step t hpending - ha ⟨hv, hl, hs⟩
    exact ⟨ha.valid hv hpending, ha.fixed.1.trans hl, ha.fixed.2.trans hs⟩
  · rintro s stage v hpending ⟨hv, hl, hs⟩
    obtain ⟨hl', hs'⟩ := settle_fixed stage v s
    exact ⟨settle_valid v hpending hv, hl'.trans hl, hs'.trans hs⟩

/-- Every call of a reachable session keeps limits and subscription. -/
theorem Reachable.call_fixed {s : Session} (h : Reachable s) (i : Call) :
    (s.call i).2.limits = s.limits ∧ (s.call i).2.stages = s.stages :=
  (ValidWith.call ⟨h.valid, rfl, rfl⟩ i).2

/-- After further calls a session is still reachable, with its limits. -/
theorem Reachable.after {s : Session} (h : s.Reachable) (calls : List Call) :
    (Machine.after call s calls).Reachable ∧ (Machine.after call s calls).limits = s.limits := by
  have hstep : ∀ t, ∀ i ∈ calls, (Reachable t ∧ t.limits = s.limits) →
      Reachable (t.call i).2 ∧ (t.call i).2.limits = s.limits :=
    fun t i _ ⟨ht, hl⟩ => ⟨Machine.Reachable.next ht i, (ht.call_fixed i).1.trans hl⟩
  refine Machine.run_invariant_on calls s ?_ hstep
  exact ⟨h, rfl⟩

/-! ### The limit on headers -/

/-- The headers stay within their limit. -/
theorem Performs.headers_le {s u : Session} {c : Command} (h : Performs s c u)
    (hs : s.message.headers.length ≤ s.limits.headers) :
    u.message.headers.length ≤ u.limits.headers := by
  cases h with
  | header hstate hcount hbudget =>
    show (s.message.headers ++ [_]).length ≤ s.limits.headers
    rw [List.length_append, List.length_singleton]
    exact hcount
  | mail => exact Nat.zero_le _
  | abort => exact Nat.zero_le _
  | quit => exact Nat.zero_le _
  | quitNewConnection => exact Nat.zero_le _
  | _ => exact hs

/-- **A message has no more headers than the limit.** -/
theorem Reachable.headers_le {s : Session} (h : Reachable s) :
    s.message.headers.length ≤ s.limits.headers := by
  have hstep : ∀ s i, Valid s ∧ s.message.headers.length ≤ s.limits.headers →
      Valid (call s i).2 ∧ (call s i).2.message.headers.length ≤ (call s i).2.limits.headers := by
    intro s i hs
    refine call_preserves (P := fun s => Valid s ∧ s.message.headers.length ≤ s.limits.headers)
      (fun hs => hs.1.options.mpr) ?_ ?_ ?_ ?_ hs i
    · rintro s t hview ⟨hv, hle⟩
      refine ⟨hv.of_sameView hview, ?_⟩
      rw [hview.headers, hview.limits]
      exact hle
    · exact fun hready hs => ⟨hs.1.reset hready, Nat.zero_le _⟩
    · rintro s c step t hpending - ha ⟨hv, hle⟩
      refine ⟨ha.valid hv hpending, ?_⟩
      cases ha with
      | negotiate => exact hle
      | macros => exact hle
      | perform _ hperforms =>
        unfold awaiting
        split <;> exact hperforms.headers_le hle
    · rintro s stage v hpending ⟨hv, hle⟩
      refine ⟨settle_valid v hpending hv, ?_⟩
      unfold settle
      dsimp only
      split_ifs <;> first | exact hle | exact Nat.zero_le _
  refine (Machine.Reachable.invariant ?_ hstep h).2
  rintro s hinitial
  refine ⟨hinitial.valid, ?_⟩
  obtain ⟨limits, stages, wantedActions, macroLists, rfl⟩ := hinitial
  exact Nat.zero_le _

end Session

end MtaHooks
