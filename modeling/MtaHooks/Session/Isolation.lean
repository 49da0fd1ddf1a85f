import MtaHooks.Session.Invariant

namespace MtaHooks

open FallibleState

/-!
# Isolation between transactions and connections

* `isolated` — two sessions that differ in earlier transactions only are indistinguishable
  once both have accepted the same MAIL: every run then gives the same answers, macro values
  and messages;
* `Transaction.keeps` — a transaction changes neither what was negotiated nor the client, its
  HELO and the macros of both;
* `quitNewConnection_restores` — QUIT_NC leads back to the session right after negotiation.
-/

namespace Session

/-! ### What only negotiation looks at -/

/-- Replace the requests that negotiation alone looks at. -/
def withRequests (wantedActions : UInt32) (macroLists : MacroLists) (s : Session) : Session :=
  { s with wantedActions, macroLists }

section Requests

variable {w : UInt32} {m : MacroLists}

/-- The check of the state looks at no request. -/
private theorem commutes_require (cmd : UInt8) (states : List State) :
    Commutes (withRequests w m) (require cmd states) :=
  .get_bind (fun _ => rfl) fun _ => .failIf _ _

/-- The count of the message looks at no request. -/
private theorem commutes_account (n : ℕ) : Commutes (withRequests w m) (account n) :=
  .get_bind (fun _ => rfl) fun _ => .bind (.lift _) fun _ => .bind (.modify fun _ => rfl)
    fun _ => .failIf _ _

/-- The count of the envelope looks at no request. -/
private theorem commutes_accountEnvelope (fields : List Bytes) :
    Commutes (withRequests w m) (accountEnvelope fields) := by
  induction fields with
  | nil => exact .get_bind (fun _ => rfl) fun _ => .failIf _ _
  | cons field fields ih =>
    exact .get_bind (fun _ => rfl) fun _ => .bind (.lift _) fun _ =>
      .bind (.modify fun _ => rfl) fun _ => ih

/-- An update that leaves the requests looks at none. -/
private theorem commutes_update {f : Session → Session} {a : Outcome}
    (hf : ∀ s, f (withRequests w m s) = withRequests w m (f s)) :
    Commutes (withRequests w m) (modify f >>= fun _ => pure a : SessionM Outcome) :=
  .bind (.modify hf) fun _ => .pure _

/-- No arm of a command looks at a request. -/
theorem arm_commutes (op : UInt8) (c : Command) : Commutes (withRequests w m) (arm op c) := by
  cases c with
  | connect info => exact .bind (commutes_require _ _) fun _ => commutes_update fun _ => rfl
  | helo helo => exact .bind (commutes_require _ _) fun _ => commutes_update fun _ => rfl
  | mail fields =>
    exact .bind (commutes_accountEnvelope _) fun _ => .bind (.lift _) fun _ =>
      commutes_update fun _ => rfl
  | recipient fields =>
    exact .bind (commutes_require _ _) fun _ => .bind (commutes_accountEnvelope _) fun _ =>
      .get_bind (fun _ => rfl) fun _ => .bind (.failIf _ _) fun _ => .bind (.lift _) fun _ =>
        commutes_update fun _ => rfl
  | data => exact .bind (commutes_require _ _) fun _ => commutes_update fun _ => rfl
  | header name value =>
    exact .bind (commutes_require _ _) fun _ => .get_bind (fun _ => rfl) fun _ =>
      .bind (.failIf _ _) fun _ => .bind (commutes_account _) fun _ =>
        commutes_update fun _ => rfl
  | endHeaders =>
    exact .bind (commutes_require _ _) fun _ => .bind (commutes_account _) fun _ =>
      commutes_update fun _ => rfl
  | body chunk =>
    exact .bind (commutes_require _ _) fun _ => .bind (commutes_account _) fun _ =>
      commutes_update fun _ => rfl
  | endMessage => exact .bind (commutes_require _ _) fun _ => .pure _
  | abort =>
    refine .bind (.modify fun _ => rfl) fun _ => commutes_update fun s => ?_
    show (if s.connection.isSome ∧ s.state ≠ .stopped then _ else _) = _
    split <;> rfl
  | quitNewConnection =>
    exact .bind (.modify fun _ => rfl) fun _ => commutes_update fun _ => rfl
  | quit => exact .bind (.modify fun _ => rfl) fun _ => commutes_update fun _ => rfl
  | unknown text => exact .pure _
  | negotiate offered => exact .fail _
  | macros stage values => exact .fail _

/-- The finish of a callback looks at no request. -/
private theorem commutes_finish (out : Outcome) : Commutes (withRequests w m) (finish out) := by
  refine .get_bind (fun _ => rfl) fun s => ?_
  cases hr : raised s.stages out.event with
  | some stage =>
    simp only
    exact .bind (.modify fun _ => rfl) fun _ => .pure _
  | none =>
    cases hb : out.replyBit with
    | some b => exact .bind (.lift _) fun _ => .pure _
    | none => exact .pure _

/-- What MAIL does before its arm looks at no request. -/
private theorem commutes_mailPrelude (op : UInt8) (c : Command) :
    Commutes (withRequests w m) (mailPrelude op c) := by
  cases c with
  | mail fields =>
    exact .get_bind (fun _ => rfl) fun _ => .bind (.modify fun _ => rfl) fun _ =>
      .bind (commutes_require _ _) fun _ => .bind (.modify fun _ => rfl) fun _ =>
        .modify fun _ => rfl
  | _ => exact .pure _

/-- No command looks at a request. -/
private theorem commutes_dispatch (op : UInt8) (c : Command) :
    Commutes (withRequests w m) (dispatch op c) :=
  .bind (commutes_mailPrelude op c) fun _ => .bind (.modify fun _ => rfl) fun _ =>
    .bind (arm_commutes op c) fun _ => commutes_finish _

/-- A second negotiation is refused and changes nothing. -/
private theorem negotiate_refused {s : Session} (hs : s.state ≠ .initial) (op : UInt8)
    (offered : Options) :
    negotiate op offered s = (.error (.sequence op s.state.name), s) := by
  have hrequire : require op [.initial] s = (.error (.sequence op s.state.name), s) := by
    simp [require, run_bind, hs]
  exact run_bind_of_error hrequire

/-- A negotiated session does not look at the requests any more. -/
theorem accept_withRequests {s : Session} (hs : s.state ≠ .initial) (op : UInt8) (c : Command) :
    accept op c (withRequests w m s) =
      ((accept op c s).1, withRequests w m (accept op c s).2) := by
  cases c with
  | negotiate offered =>
    show negotiate op offered (withRequests w m s) = _
    -- A second negotiation is refused before its offer is looked at.
    have hs' : (withRequests w m s).state ≠ .initial := hs
    rw [negotiate_refused hs']
    show _ = ((negotiate op offered s).1, withRequests w m (negotiate op offered s).2)
    rw [negotiate_refused hs]
    rfl
  | macros stage values =>
    -- Definitions touch the waiting batches and the limits only.
    have h : Commutes (withRequests w m) (accept op (.macros stage values)) :=
      .get_bind (fun _ => rfl) fun _ => .bind (.failIf _ _) fun _ =>
        .bind (.modify fun _ => rfl) fun _ => .get_bind (fun _ => rfl) fun _ =>
          .bind (.failIf _ _) fun _ => .pure _
    exact h s
  | _ =>
    have h : ∀ c, Commutes (withRequests w m) (do
        let s ← get
        failIf (s.state = .initial) (.invalid "negotiate first")
        dispatch op c) := fun c =>
      .get_bind (fun _ => rfl) fun _ => .bind (.failIf _ _) fun _ => commutes_dispatch op c
    exact h _ s

/-- A frame is taken the same way whatever the requests are. -/
theorem receive_withRequests {s : Session} (hs : s.state ≠ .initial) (f : Frame) :
    receive f (withRequests w m s) =
      ((receive f s).1, withRequests w m (receive f s).2) := by
  have hpending : (withRequests w m s).pending = s.pending := rfl
  have hstate : (withRequests w m s).state = s.state := rfl
  simp only [receive, run_bind, run_get, run_failIf, run_lift, hpending, hstate]
  by_cases hp : s.pending.isSome
  · simp [hp]
  cases hd : Command.decode f with
  | error e => simp [hp]
  | ok c =>
    by_cases hc : s.state = .closed
    · simp [hp, hc]
    · simp [hp, hc, accept_withRequests hs]

/-- A verdict is settled the same way whatever the requests are. -/
private theorem settle_withRequests (stage : Stage) (v : Verdict) (s : Session) :
    settle stage v (withRequests w m s) = withRequests w m (settle stage v s) := by
  unfold settle
  by_cases hshut : v = .shutdown
  · simp only [if_pos hshut]
    rfl
  by_cases hrcpt : rejected v ∧ stage = .recipient
  · simp only [if_neg hshut, if_pos hrcpt]
    rfl
  by_cases hstop : rejected v ∧ (stage = .connect ∨ stage = .helo)
  · simp only [if_neg hshut, if_neg hrcpt, if_pos hstop]
    rfl
  by_cases hdone : stage = .endMessage ∨ rejected v ∨ finished v
  · simp only [if_neg hshut, if_neg hrcpt, if_neg hstop, if_pos hdone]
    rfl
  · simp only [if_neg hshut, if_neg hrcpt, if_neg hstop, if_neg hdone]
    rfl

/-- A decision is completed the same way whatever the requests are. -/
theorem complete_commutes (d : Decision) : Commutes (withRequests w m) (complete d) :=
  .get_bind (fun _ => rfl) fun _ => .bind (.lift _) fun _ => .bind (.lift _) fun _ =>
    .bind (.failIf _ _) fun _ => .bind (.failIf _ _) fun _ => .bind (.lift _) fun _ =>
      .bind (.lift _) fun _ => .bind (.failIf _ _) fun _ =>
        .bind (.modify (settle_withRequests _ _)) fun _ => .pure _

/-- Every call of a negotiated session is blind to the requests. -/
theorem call_withRequests {s : Session} (hs : s.state ≠ .initial) (i : Call) :
    (withRequests w m s).call i = ((s.call i).1, withRequests w m (s.call i).2) := by
  cases i with
  | receive f => simp [call, receive_withRequests hs]
  | complete d => simp [call, complete_commutes d s]

end Requests

/-! ### A negotiated session stays negotiated -/

/-- No accepted call leads back in front of the negotiation. -/
theorem Accepts.not_initial {s t : Session} {c : Command} {step : Step} (h : Accepts s c step t) :
    t.state ≠ .initial := by
  cases h with
  | negotiate _ _ _ => exact nofun
  | macros hstate _ => exact hstate
  | @perform _ u hstate hperforms =>
    have hu : u.state ≠ .initial := by
      cases hperforms with
      -- ABORT keeps the state of a stopped session, or one without a client.
      | abort =>
        show (if s.connection.isSome ∧ s.state ≠ .stopped then State.ready else s.state) ≠ _
        split
        · exact nofun
        · exact hstate
      | body hin _ => exact hstate
      | endMessage hin => exact hstate
      | helo hin => exact hstate
      | unknown => exact hstate
      | _ => exact nofun
    unfold awaiting
    split <;> exact hu

/-- No verdict leads back in front of the negotiation. -/
theorem settle_not_initial {s : Session} (stage : Stage) (v : Verdict)
    (hs : s.state ≠ .initial) : (settle stage v s).state ≠ .initial := by
  unfold settle
  by_cases hshut : v = .shutdown
  · rw [if_pos hshut]
    exact nofun
  rw [if_neg hshut]
  by_cases hrcpt : rejected v ∧ stage = .recipient
  · rw [if_pos hrcpt]
    show (if s.message.recipients.dropLast.isEmpty then State.mail else .recipients) ≠ _
    split <;> exact nofun
  rw [if_neg hrcpt]
  split_ifs
  · exact nofun
  · exact nofun
  · exact hs

/-- A valid session after negotiation. -/
def Negotiated (s : Session) : Prop := Valid s ∧ s.state ≠ .initial

/-- A call leaves a negotiated session negotiated. -/
theorem Negotiated.call {s : Session} (h : Negotiated s) (i : Call) : Negotiated (s.call i).2 := by
  refine call_preserves (P := Negotiated) (fun hv => hv.1.options.mpr) ?_ ?_ ?_ ?_ h i
  · rintro s t hview ⟨hv, hs⟩
    exact ⟨hv.of_sameView hview, hview.state ▸ hs⟩
  · rintro s hready ⟨hv, hs⟩
    exact ⟨hv.reset hready, hs⟩
  · rintro s c step t hpending - ha ⟨hv, hs⟩
    exact ⟨ha.valid hv hpending, ha.not_initial⟩
  · rintro s stage v hpending ⟨hv, hs⟩
    exact ⟨settle_valid v hpending hv, settle_not_initial stage v hs⟩

/-! ### Two runs -/

/-- The sessions agree on all that outlives a transaction. -/
structure Alike (s t : Session) : Prop where
  limits : t.limits = s.limits
  stages : t.stages = s.stages
  options : t.options = s.options
  connection : t.connection = s.connection
  helo : t.helo = s.helo
  connectMacros : t.macros (byte 'C') = s.macros (byte 'C')
  heloMacros : t.macros (byte 'H') = s.macros (byte 'H')
  pendingConnectMacros : t.pendingMacros (byte 'C') = s.pendingMacros (byte 'C')
  pendingHeloMacros : t.pendingMacros (byte 'H') = s.pendingMacros (byte 'H')
  pendingMailMacros : t.pendingMacros (byte 'M') = s.pendingMacros (byte 'M')

/-- The start of a MAIL depends on what outlives transactions only. -/
theorem startMail_alike {s t : Session} (h : Alike s t) (hs : s.state = .ready)
    (ht : t.state = .ready) :
    t.startMail = withRequests t.wantedActions t.macroLists s.startMail := by
  -- A MAIL starts from what it retains, so the batches of the two classes are all it sees.
  have hmacros := Batches.retain_congr h.connectMacros h.heloMacros
  have hpending := Batches.retain_congr h.pendingConnectMacros h.pendingHeloMacros
  simp only [startMail, withRequests, resetMessage, h.limits, h.stages, h.options, h.connection,
    h.helo, h.pendingMailMacros, hmacros, hpending, hs, ht]

/-- Two sessions after the same MAIL differ in the requests only. -/
theorem accepted_mail_alike {s t s' t' : Session} {f : Frame} {fields : List Bytes}
    {step step' : Step} (h : Alike s t) (hf : Command.decode f = .ok (.mail fields))
    (hs : receive f s = (.ok step, s')) (ht : receive f t = (.ok step', t')) :
    step' = step ∧ t' = withRequests t.wantedActions t.macroLists s' := by
  obtain ⟨c, hc, -, -, ha⟩ := receive_ok hs
  obtain ⟨c', hc', -, -, ha'⟩ := receive_ok ht
  obtain rfl := Except.ok.inj (hf.symm.trans hc)
  obtain rfl := Except.ok.inj (hf.symm.trans hc')
  cases ha with
  | perform _ hp =>
    cases ha' with
    | perform _ hp' =>
      cases hp with
      -- Both sessions were ready: the message is new, and the state is the same.
      | mail hready _ =>
        cases hp' with
        | mail hready' _ =>
          rw [startMail_alike h hready hready']
          unfold answer awaiting
          constructor
          · rfl
          · dsimp only [withRequests]
            split <;> rfl

/-- Sessions that differ in the requests only are indistinguishable. -/
theorem run_withRequests {w : UInt32} {m : MacroLists} {s : Session} (hs : Negotiated s)
    (calls : List Call) :
    (Machine.run call (withRequests w m s) calls).1 = (Machine.run call s calls).1 ∧
      Machine.after call (withRequests w m s) calls =
        withRequests w m (Machine.after call s calls) := by
  -- Lockstep: the relation is kept by every call, and equal answers follow from it.
  have hstep : ∀ t s i, Negotiated s ∧ t = withRequests w m s →
      (call t i).1 = (call s i).1 ∧
        Negotiated (call s i).2 ∧ (call t i).2 = withRequests w m (call s i).2 := by
    rintro t s i ⟨hs, rfl⟩
    rw [call_withRequests hs.2]
    exact ⟨rfl, hs.call i, rfl⟩
  obtain ⟨houts, -, hend⟩ := Machine.run_lockstep
    (R := fun t s => Negotiated s ∧ t = withRequests w m s) hstep calls ⟨hs, rfl⟩
  exact ⟨houts, hend⟩

/-- **Transactions are isolated.** -/
theorem isolated {s t s' t' : Session} {f : Frame} {fields : List Bytes} {step step' : Step}
    (hreach : s.Reachable) (h : Alike s t) (hf : Command.decode f = .ok (.mail fields))
    (hs : receive f s = (.ok step, s')) (ht : receive f t = (.ok step', t'))
    (calls : List Call) :
    step' = step ∧
    (Machine.run call t' calls).1 = (Machine.run call s' calls).1 ∧
    (∀ name, (Machine.after call t' calls).macroValue name =
      (Machine.after call s' calls).macroValue name) ∧
    (Machine.after call t' calls).message = (Machine.after call s' calls).message := by
  obtain ⟨hstep, rfl⟩ := accepted_mail_alike h hf hs ht
  obtain ⟨c, -, -, -, ha⟩ := receive_ok hs
  have hvalid : Valid (s.call (.receive f)).2 := Reachable.valid (Machine.Reachable.next hreach _)
  rw [show (s.call (.receive f)).2 = s' from congrArg Prod.snd hs] at hvalid
  obtain ⟨houts, hend⟩ := run_withRequests ⟨hvalid, ha.not_initial⟩ calls
  refine ⟨hstep, houts, fun name => ?_, ?_⟩
  · rw [hend]; rfl
  · rw [hend]; rfl

/-! ### What a transaction keeps -/

/-- What was negotiated, the client, its HELO and the macros of both. -/
def connectionView (s : Session) :
    Option Options × Option Connection × Option Bytes × Option Macros × Option Macros :=
  (s.options, s.connection, s.helo, s.macros (byte 'C'), s.macros (byte 'H'))

/-- The sessions agree on the connection. -/
def SameConnection (s t : Session) : Prop := s.connectionView = t.connectionView

instance : Std.Refl SameConnection := ⟨fun _ => rfl⟩

instance : Trans SameConnection SameConnection SameConnection := ⟨fun h h' => Eq.trans h h'⟩

/-- The calls a transaction is made of: decisions, and all frames but negotiation, CONNECT,
    HELO and QUIT_NC. -/
def OfTransaction : Call → Prop
  | .receive f => f.command ∉ [byte 'O', byte 'C', byte 'H', byte 'K']
  | .complete _ => True

/-- The macros of another command are not those of the connection. -/
theorem activateMacros_connection_view (s : Session) {c : UInt8} (hC : byte 'C' ≠ c)
    (hH : byte 'H' ≠ c) : SameConnection s (s.activateMacros c) := by
  simp only [SameConnection, connectionView, activateMacros, Batches.set_of_ne _ _ hC,
    Batches.set_of_ne _ _ hH]

/-- The reset of the message leaves what belongs to the connection. -/
theorem resetMessage_connection_view (s : Session) : SameConnection s s.resetMessage := by
  simp [SameConnection, connectionView, resetMessage]

/-- The check of the state leaves what belongs to the connection. -/
private theorem keeps_require_connection (cmd : UInt8) (states : List State) :
    Keeps SameConnection (require cmd states) :=
  .bind .get fun _ => .failIf _ _

/-- The count of the message leaves what belongs to the connection. -/
private theorem keeps_account_connection (n : ℕ) : Keeps SameConnection (account n) :=
  .bind .get fun _ => .bind (.lift _) fun _ => .bind (.modify fun _ => rfl) fun _ => .failIf _ _

/-- The count of the envelope leaves what belongs to the connection. -/
private theorem keeps_accountEnvelope_connection (fields : List Bytes) :
    Keeps SameConnection (accountEnvelope fields) := by
  induction fields with
  | nil => exact .bind .get fun _ => .failIf _ _
  | cons field fields ih =>
    exact .bind .get fun _ => .bind (.lift _) fun _ => .bind (.modify fun _ => rfl) fun _ => ih

/-- The finish of a callback leaves what belongs to the connection. -/
private theorem keeps_finish_connection (out : Outcome) : Keeps SameConnection (finish out) := by
  refine .bind .get fun s => ?_
  cases raised s.stages out.event with
  | some stage => exact .bind (.modify fun _ => rfl) fun _ => .pure _
  | none =>
    cases out.replyBit with
    | some b => exact .bind (.lift _) fun _ => .pure _
    | none => exact .pure _

/-- What MAIL does before its arm leaves what belongs to the connection. -/
private theorem keeps_mailPrelude_connection (op : UInt8) (c : Command) :
    Keeps SameConnection (mailPrelude op c) := by
  cases c with
  | mail fields =>
    exact .bind .get fun _ => .bind (.modify fun _ => rfl) fun _ =>
      .bind (keeps_require_connection _ _) fun _ =>
        .bind (.modify resetMessage_connection_view) fun _ => .modify fun _ => rfl
  | _ => exact .pure _

/-- The arms of a transaction keep the connection. -/
theorem keeps_arm_connection (op : UInt8) {c : Command}
    (hc : c.opcode ∉ [byte 'O', byte 'C', byte 'H', byte 'K']) :
    Keeps SameConnection (arm op c) := by
  cases c with
  | connect info => exact absurd (by simp [Command.opcode]) hc
  | helo helo => exact absurd (by simp [Command.opcode]) hc
  | quitNewConnection => exact absurd (by simp [Command.opcode]) hc
  | mail fields =>
    exact .bind (keeps_accountEnvelope_connection _) fun _ => .bind (.lift _) fun _ =>
      .bind (.modify fun _ => rfl) fun _ => .pure _
  | recipient fields =>
    exact .bind (keeps_require_connection _ _) fun _ =>
      .bind (keeps_accountEnvelope_connection _) fun _ => .bind .get fun _ =>
        .bind (.failIf _ _) fun _ => .bind (.lift _) fun _ =>
          .bind (.modify fun _ => rfl) fun _ => .pure _
  | data =>
    exact .bind (keeps_require_connection _ _) fun _ => .bind (.modify fun _ => rfl)
      fun _ => .pure _
  | header name value =>
    exact .bind (keeps_require_connection _ _) fun _ => .bind .get fun _ =>
      .bind (.failIf _ _) fun _ => .bind (keeps_account_connection _) fun _ =>
        .bind (.modify fun _ => rfl) fun _ => .pure _
  | endHeaders =>
    exact .bind (keeps_require_connection _ _) fun _ => .bind (keeps_account_connection _)
      fun _ => .bind (.modify fun _ => rfl) fun _ => .pure _
  | body chunk =>
    exact .bind (keeps_require_connection _ _) fun _ => .bind (keeps_account_connection _)
      fun _ => .bind (.modify fun _ => rfl) fun _ => .pure _
  | endMessage => exact .bind (keeps_require_connection _ _) fun _ => .pure _
  | abort =>
    refine .bind (.modify resetMessage_connection_view) fun _ =>
      .bind (.modify fun s => ?_) fun _ => .pure _
    split <;> rfl
  | quit =>
    exact .bind (.modify resetMessage_connection_view) fun _ => .bind (.modify fun _ => rfl)
      fun _ => .pure _
  | unknown text => exact .pure _
  | negotiate offered => exact .fail _
  | macros stage values => exact .fail _

/-- A verdict leaves what belongs to the connection. -/
theorem settle_connection_view (stage : Stage) (v : Verdict) (s : Session) :
    SameConnection s (settle stage v s) := by
  unfold settle
  dsimp only
  split_ifs
  · exact resetMessage_connection_view _
  · rfl
  · rfl
  · rfl
  · exact resetMessage_connection_view _
  · rfl

/-- **A call of a transaction keeps the connection**, accepted or not. -/
theorem call_connection_view {i : Call} (hi : OfTransaction i) (s : Session) :
    SameConnection s (s.call i).2 := by
  cases i with
  | complete d =>
    have h : Keeps SameConnection (complete d) :=
      .bind .get fun _ => .bind (.lift _) fun _ => .bind (.lift _) fun _ =>
        .bind (.failIf _ _) fun _ => .bind (.failIf _ _) fun _ => .bind (.lift _) fun _ =>
          .bind (.lift _) fun _ => .bind (.failIf _ _) fun _ =>
            .bind (.modify (settle_connection_view _ _)) fun _ => .pure _
    exact h s
  | receive f =>
    have hdispatch : ∀ c : Command, c.opcode = f.command →
        Keeps SameConnection (dispatch f.command c) := by
      intro c hc
      have hop : c.opcode ∉ [byte 'O', byte 'C', byte 'H', byte 'K'] := hc ▸ hi
      -- The command activates a batch of its own class, which is neither of the two kept.
      have hCH : byte 'C' ≠ f.command ∧ byte 'H' ≠ f.command := by
        constructor <;> exact fun h => hi (by simp [← h])
      exact .bind (keeps_mailPrelude_connection _ _) fun _ =>
        .bind (.modify fun s => activateMacros_connection_view s hCH.1 hCH.2) fun _ =>
          .bind (keeps_arm_connection _ hop) fun _ => keeps_finish_connection _
    have h : Keeps SameConnection (receive f) := by
      refine .bind .get fun _ => .bind (.failIf _ _) fun _ => .lift_bind fun c hc =>
        .bind (.failIf _ _) fun _ => ?_
      have hop := (Command.decode_opcode hc).symm
      cases c with
      | negotiate offered => exact absurd (by rw [← hop]; simp [Command.opcode]) hi
      | macros stage values =>
        exact .bind .get fun _ => .bind (.failIf _ _) fun _ => .bind (.modify fun _ => rfl)
          fun _ => .bind .get fun _ => .bind (.failIf _ _) fun _ => .pure _
      | _ => exact .bind .get fun _ => .bind (.failIf _ _) fun _ => hdispatch _ hop
    exact h s

/-- The arm of a command that is out of place fails before it does anything; only the macros of
    its class have been activated by then. -/
theorem accept_misplaced {s : Session} {c : Command} (hs : s.state.hasSender = true)
    (hc : c.opcode = byte 'C' ∨ c.opcode = byte 'H') (op : UInt8) :
    accept op c s = (.error (.sequence op s.state.name), s.activateMacros op) := by
  have hinitial : s.state ≠ .initial := fun h => by rw [h] at hs; cases hs
  have hnegotiated : s.state ≠ .negotiated := fun h => by rw [h] at hs; cases hs
  have hready : s.state ≠ .ready := fun h => by rw [h] at hs; cases hs
  cases c with
  | connect info =>
    simp [accept, dispatch, mailPrelude, arm, require, run_bind, hinitial, hnegotiated,
      activateMacros]
  | helo helo =>
    simp [accept, dispatch, mailPrelude, arm, require, run_bind, hinitial, hready,
      activateMacros]
  | _ => exact absurd hc (by simp only [Command.opcode]; decide)

/-- In a transaction a CONNECT or a HELO is refused.  It has no effect, or activates the macros
    of its class and is refused as out of place. -/
theorem receive_misplaced {s : Session} {f : Frame} (hs : s.state.hasSender = true)
    (hf : f.command = byte 'C' ∨ f.command = byte 'H') :
    (receive f s).2 = s ∨ (receive f s).2 = s.activateMacros f.command ∧
      ∃ name, (receive f s).1 = .error (.sequence f.command name) := by
  have hclosed : s.state ≠ .closed := fun h => by rw [h] at hs; cases hs
  simp only [receive, run_bind, run_get, run_failIf, run_lift]
  by_cases hp : s.pending.isSome
  · simp [hp]
  cases hd : Command.decode f with
  | error e => simp [hp]
  | ok c =>
    have hc : c.opcode = byte 'C' ∨ c.opcode = byte 'H' := by
      rwa [← Command.decode_opcode hd]
    have haccept := accept_misplaced hs hc f.command
    simp [hp, hclosed, haccept]

/-- A second negotiation is refused without effect. -/
theorem receive_renegotiation {s : Session} {f : Frame} (hs : s.state.hasSender = true)
    (hf : f.command = byte 'O') : (receive f s).2 = s := by
  have hinitial : s.state ≠ .initial := fun h => by rw [h] at hs; cases hs
  simp only [receive, run_bind, run_get, run_failIf, run_lift]
  by_cases hp : s.pending.isSome
  · simp [hp]
  by_cases hclosed : s.state = .closed
  · cases Command.decode f <;> simp [hp, hclosed]
  cases hd : Command.decode f with
  | error e => simp [hp]
  | ok c =>
    have hc : c.opcode = byte 'O' := by rw [← Command.decode_opcode hd, hf]
    cases c with
    | negotiate offered => simp [hp, hclosed, accept, negotiate_refused hinitial]
    | _ => exact absurd hc (by simp only [Command.opcode]; decide)

/-- The calls refuse a command of the class as out of place somewhere. -/
def Misplaces (s : Session) (calls : List Call) (stage : UInt8) : Prop :=
  ∃ pre f post name, calls = pre ++ .receive f :: post ∧
    (receive f (Machine.after call s pre)).1 = .error (.sequence stage name)

/-- A misplaced command of the rest is one of the whole. -/
theorem Misplaces.cons {s : Session} {i : Call} {calls : List Call} {stage : UInt8}
    (h : Misplaces (s.call i).2 calls stage) : Misplaces s (i :: calls) stage := by
  obtain ⟨pre, f, post, name, rfl, hrefused⟩ := h
  exact ⟨i :: pre, f, post, name, rfl, hrefused⟩

/-- What a transaction keeps of the connection: what was negotiated, the client and its HELO
    always, the macros of both unless a command of their class is out of place in it. -/
structure KeepsConnection (s : Session) (calls : List Call) (t : Session) : Prop where
  options : t.options = s.options
  connection : t.connection = s.connection
  helo : t.helo = s.helo
  macros : ∀ stage, stage = byte 'C' ∨ stage = byte 'H' → ¬ Misplaces s calls stage →
    t.macros stage = s.macros stage

/-- Equal views of the connection have equal macros of HELO. -/
theorem SameConnection.heloMacros {s t : Session} (h : SameConnection s t) :
    s.macros (byte 'H') = t.macros (byte 'H') :=
  congrArg (fun view => view.2.2.2.2) h

/-- A step that leaves the connection is within what a run may do to it. -/
theorem SameConnection.keeps {s t : Session} (h : SameConnection s t) (calls : List Call) :
    KeepsConnection s calls t := by
  simp only [SameConnection, connectionView, Prod.mk.injEq] at h
  obtain ⟨hoptions, hconnection, hhelo, hconnect, hhelos⟩ := h
  refine ⟨hoptions.symm, hconnection.symm, hhelo.symm, fun stage hstage _ => ?_⟩
  rcases hstage with rfl | rfl
  · exact hconnect.symm
  · exact hhelos.symm

/-- **A call in a transaction**: any decision, and any frame but QUIT_NC, refused or not. -/
theorem call_keeps {s : Session} {i : Call}
    (hi : ∀ f, i = .receive f → s.state.hasSender = true ∧ f.command ≠ byte 'K') :
    KeepsConnection s [i] (s.call i).2 := by
  by_cases hof : OfTransaction i
  · exact (call_connection_view hof s).keeps _
  cases i with
  | complete d => exact absurd trivial hof
  | receive f =>
    obtain ⟨hs, hK⟩ := hi f rfl
    have hmem : f.command ∈ [byte 'O', byte 'C', byte 'H', byte 'K'] := by
      by_contra hmem
      exact hof hmem
    by_cases hO : f.command = byte 'O'
    · have hsame : SameConnection s (s.call (.receive f)).2 := by
        rw [show (s.call (.receive f)).2 = s from receive_renegotiation hs hO]
        rfl
      exact hsame.keeps _
    have hf : f.command = byte 'C' ∨ f.command = byte 'H' := by
      simpa [hO, hK] using hmem
    rcases receive_misplaced hs hf with hsame | ⟨hactivated, name, hrefused⟩
    · have hsame : SameConnection s (s.call (.receive f)).2 := by
        rw [show (s.call (.receive f)).2 = s from hsame]
        rfl
      exact hsame.keeps _
    · rw [show (s.call (.receive f)).2 = _ from hactivated]
      refine ⟨rfl, rfl, rfl, fun stage _ hnone => Batches.set_of_ne _ _ fun hstage => hnone ?_⟩
      exact ⟨[], f, [], name, rfl, by rw [hstage]; exact hrefused⟩

/-- A transaction keeps the connection however it ends. -/
theorem calls_keep {s : Session} {calls : List Call}
    (h : ∀ pre f post, calls = pre ++ .receive f :: post →
      (Machine.after call s pre).state.hasSender = true ∧ f.command ≠ byte 'K') :
    KeepsConnection s calls (Machine.after call s calls) := by
  induction calls generalizing s with
  | nil => exact ⟨rfl, rfl, rfl, fun _ _ _ => rfl⟩
  | cons i calls ih =>
    have hfirst : KeepsConnection s [i] (s.call i).2 := by
      refine call_keeps fun f hf => ?_
      subst hf
      exact h [] f calls rfl
    have hrest := ih (s := (s.call i).2) fun pre f post hcalls =>
      h (i :: pre) f post (by rw [hcalls]; rfl)
    refine ⟨hrest.options.trans hfirst.options, hrest.connection.trans hfirst.connection,
      hrest.helo.trans hfirst.helo, fun stage hstage hnone => ?_⟩
    have hnone' : ¬ Misplaces s [i] stage := by
      rintro ⟨pre, f, post, name, hi, hrefused⟩
      refine hnone ⟨pre, f, post ++ calls, name, ?_, hrefused⟩
      rw [← List.cons_append, ← List.append_assoc, ← hi]
      rfl
    exact (hrest.macros stage hstage fun hlater => hnone hlater.cons).trans
      (hfirst.macros stage hstage hnone')

/-- The calls of one transaction: MAIL is received, and as long as the transaction lasts
    decisions are made and frames other than QUIT_NC are received, accepted or refused. -/
structure Transaction (s : Session) (mail : Frame) (calls : List Call) : Prop where
  start : mail.command = byte 'M'
  lasts : ∀ pre f post, calls = pre ++ .receive f :: post →
    (Machine.after call s (.receive mail :: pre)).state.hasSender = true
  stays : ∀ f, .receive f ∈ calls → f.command ≠ byte 'K'

/-- **A transaction keeps the connection** however it ends. -/
theorem Transaction.keeps {s : Session} {mail : Frame} {calls : List Call}
    (h : Transaction s mail calls) :
    KeepsConnection s (.receive mail :: calls)
      (Machine.after call s (.receive mail :: calls)) := by
  have hmail : SameConnection s (s.call (.receive mail)).2 := by
    refine call_connection_view (i := .receive mail) ?_ s
    show mail.command ∉ _
    rw [h.start]
    decide
  have hkept := hmail.keeps [.receive mail]
  have hrest : KeepsConnection (s.call (.receive mail)).2 calls
      (Machine.after call (s.call (.receive mail)).2 calls) :=
    calls_keep fun pre f post hcalls => ⟨h.lasts pre f post hcalls, h.stays f (by simp [hcalls])⟩
  refine ⟨hrest.options.trans hkept.options, hrest.connection.trans hkept.connection,
    hrest.helo.trans hkept.helo, fun stage hstage hnone => ?_⟩
  have hsame : (s.call (.receive mail)).2.macros stage = s.macros stage := by
    refine hkept.macros stage hstage fun ⟨pre, f, post, name, hcalls, hrefused⟩ => hnone ?_
    exact ⟨pre, f, post ++ calls, name, by
      rw [← List.cons_append, ← List.append_assoc, ← hcalls]
      rfl, hrefused⟩
  exact (hrest.macros stage hstage fun hlater => hnone hlater.cons).trans hsame

/-! ### QUIT_NC -/

/-- The session with nothing but its settings: what QUIT_NC keeps. -/
def settings (s : Session) : Session :=
  { s with
    state := .negotiated
    connection := none
    helo := none
    message := {}
    macros := .empty
    pendingMacros := .empty
    pending := none }

/-- An arm of a command leaves the settings. -/
theorem Performs.settings {s u : Session} {c : Command} (h : Performs s c u) :
    u.settings = s.settings := by
  cases h <;> rfl

/-- An accepted call leaves the settings once negotiated. -/
theorem Accepts.settings {s t : Session} {c : Command} {step : Step} (h : Accepts s c step t)
    (hs : s.state ≠ .initial) : t.settings = s.settings := by
  cases h with
  | negotiate hstate _ _ => exact absurd hstate hs
  | macros _ _ => rfl
  | @perform _ u _ hperforms =>
    rw [← hperforms.settings]
    unfold awaiting
    split <;> rfl

/-- A verdict leaves the settings. -/
theorem settle_settings (stage : Stage) (v : Verdict) (s : Session) :
    (settle stage v s).settings = s.settings := by
  unfold settle
  dsimp only
  split_ifs <;> rfl

/-- Equal views have equal settings. -/
theorem SameView.settings {s t : Session} (h : SameView s t) : t.settings = s.settings :=
  (congrArg Session.settings h).symm

/-- The calls of a negotiated session do not change its settings. -/
theorem Negotiated.call_settings {s : Session} (h : Negotiated s) (i : Call) :
    (s.call i).2.settings = s.settings := by
  refine (call_preserves (P := fun t => Negotiated t ∧ t.settings = s.settings)
    (fun hv => hv.1.1.options.mpr) ?_ ?_ ?_ ?_ ⟨h, rfl⟩ i).2
  · rintro t u hview ⟨⟨hv, ht⟩, hset⟩
    exact ⟨⟨hv.of_sameView hview, hview.state ▸ ht⟩, hview.settings.trans hset⟩
  · rintro t hready ⟨⟨hv, ht⟩, hset⟩
    exact ⟨⟨hv.reset hready, ht⟩, hset⟩
  · rintro t c step u hpending - ha ⟨⟨hv, ht⟩, hset⟩
    exact ⟨⟨ha.valid hv hpending, ha.not_initial⟩, (ha.settings ht).trans hset⟩
  · rintro t stage v hpending ⟨⟨hv, ht⟩, hset⟩
    exact ⟨⟨settle_valid v hpending hv, settle_not_initial stage v ht⟩,
      (settle_settings stage v t).trans hset⟩

/-- A run from a negotiated session leaves its settings. -/
theorem Negotiated.after_settings {s : Session} (h : Negotiated s) (calls : List Call) :
    (Machine.after Session.call s calls).settings = s.settings := by
  refine (Machine.run_invariant_on (P := fun t => Negotiated t ∧ t.settings = s.settings) calls s
    ⟨h, rfl⟩ fun t i _ ⟨ht, hset⟩ => ?_).2
  exact ⟨ht.call i, (ht.call_settings i).trans hset⟩

/-- A refused negotiation changes nothing. -/
private theorem negotiate_fails_unchanged (op : UInt8) (offered : Options) :
    FailsWithin (@Eq Session) (negotiate op offered) :=
  .bind (.bind .get fun _ => .failIf _ _) fun _ => .bind (.failIf _ _) fun _ =>
    .bind .get fun _ => .bind (.lift _) fun _ => .modify_pure _ _

/-- Before negotiation a refused frame changes nothing. -/
theorem receive_error_initial {f : Frame} {s t : Session} {e : Error} (hs : s.state = .initial)
    (h : receive f s = (.error e, t)) : t = s := by
  cases receive_refuses h with
  | awaiting => rfl
  | malformed => rfl
  | closed => rfl
  | early => rfl
  | negotiate h => exact (negotiate_fails_unchanged _ _ s e t h).symm
  | macros hstate => exact absurd hs hstate
  | dispatch _ _ hstate => exact absurd hs hstate

/-- Before negotiation a call changes nothing or is the accepted negotiation frame. -/
theorem initial_call {s : Session} (hs : s.Initial) (i : Call) :
    (s.call i).2 = s ∨
      ∃ f offered step, i = .receive f ∧ Command.decode f = .ok (.negotiate offered) ∧
        receive f s = (.ok step, (s.call i).2) ∧ (s.call i).2.settings = (s.call i).2 := by
  have hstate : s.state = .initial := by
    obtain ⟨_, _, _, _, rfl⟩ := hs
    rfl
  cases i with
  -- No callback is pending before negotiation, so a decision is refused.
  | complete d =>
    have hpending : s.pending = none := by
      obtain ⟨_, _, _, _, rfl⟩ := hs
      rfl
    refine .inl ?_
    show (complete d s).2 = s
    rcases hr : complete d s with ⟨r, t⟩
    cases r with
    | ok frames =>
      obtain ⟨stage, hc⟩ := complete_ok hr
      exact absurd (hpending.symm.trans hc.pending) nofun
    | error e => exact complete_error hr
  | receive f =>
    show (receive f s).2 = s ∨ _
    rcases hr : receive f s with ⟨r, t⟩
    cases r with
    | error e => exact .inl (receive_error_initial hstate hr)
    | ok step =>
      obtain ⟨c, hc, -, -, ha⟩ := receive_ok hr
      have ht : (s.call (.receive f)).2 = t := congrArg Prod.snd hr
      cases ha with
      | negotiate _ _ _ =>
        refine .inr ⟨f, _, _, rfl, hc, by rw [ht]; exact hr, ?_⟩
        rw [ht]
        obtain ⟨_, _, _, _, rfl⟩ := hs
        rfl
      | macros hne _ => exact absurd hstate hne
      | perform hne _ => exact absurd hstate hne

/-- A run of a fresh session changes nothing, or negotiates once; afterwards its settings are
    those of the negotiation. -/
theorem negotiated_once {s : Session} (hs : s.Initial) (calls : List Call) :
    Machine.after call s calls = s ∨
      ∃ pre f offered step t post, calls = pre ++ .receive f :: post ∧
        Command.decode f = .ok (.negotiate offered) ∧
        receive f (Machine.after call s pre) = (.ok step, t) ∧
        (Machine.after call s calls).settings = t := by
  induction calls with
  | nil => exact .inl rfl
  | cons i is ih =>
    rcases initial_call hs i with hsame | ⟨f, offered, step, rfl, hf, hr, hset⟩
    · rw [Machine.after_cons, hsame]
      rcases ih with hsame' | ⟨pre, f, offered, step, t, post, rfl, hf, hr, hset⟩
      · exact .inl hsame'
      · refine .inr ⟨i :: pre, f, offered, step, t, post, rfl, hf, ?_, hset⟩
        rw [Machine.after_cons, hsame]
        exact hr
    -- Once negotiated, whatever follows keeps the settings of that session.
    · have hnext : Negotiated (s.call (.receive f)).2 := by
        refine ⟨Reachable.valid (Machine.Reachable.next (.init hs) _), ?_⟩
        rw [← hset]
        exact nofun
      refine .inr ⟨[], f, offered, step, _, is, rfl, hf, hr, ?_⟩
      rw [Machine.after_cons, hnext.after_settings, hset]

/-- **QUIT_NC leads back to the session right after negotiation.** -/
theorem quitNewConnection_restores {s t : Session} {calls : List Call} {f : Frame} {step : Step}
    (hs : s.Initial) (hf : Command.decode f = .ok .quitNewConnection)
    (h : receive f (Machine.after call s calls) = (.ok step, t)) :
    ∃ pre g offered step' post, calls = pre ++ .receive g :: post ∧
      Command.decode g = .ok (.negotiate offered) ∧
      receive g (Machine.after call s pre) = (.ok step', t) := by
  obtain ⟨c, hc, -, -, ha⟩ := receive_ok h
  obtain rfl := Except.ok.inj (hf.symm.trans hc)
  cases ha with
  | @perform _ u hne hperforms =>
    rcases negotiated_once hs calls with
      hsame | ⟨pre, g, offered, step', v, post, rfl, hg, hr, hset⟩
    · refine absurd ?_ hne
      rw [hsame]
      obtain ⟨_, _, _, _, rfl⟩ := hs
      rfl
    · refine ⟨pre, g, offered, step', post, rfl, hg, ?_⟩
      cases hperforms with
      -- QUIT_NC clears all but the settings, and so did the negotiation.
      | quitNewConnection =>
        rw [(answer_silent _ rfl rfl).2]
        rw [hr, ← hset]
        rfl

/-! ### Isolation -/

/-- A transaction that lasts for one more frame. -/
theorem Transaction.of_two {s : Session} {mail f g : Frame} (hstart : mail.command = byte 'M')
    (hfirst : (receive mail s).2.state.hasSender = true)
    (hsecond : (receive f (receive mail s).2).2.state.hasSender = true)
    (hf : f.command ≠ byte 'K') (hg : g.command ≠ byte 'K') :
    Transaction s mail [.receive f, .receive g] where
  start := hstart
  lasts := by
    intro pre f' post h
    match pre, h with
    | [], h => exact hfirst
    | [_], h =>
      obtain ⟨rfl, -⟩ := List.cons.inj h
      exact hsecond
    | _ :: _ :: _, h => simp at h
  stays := by
    intro f' hf'
    simp only [List.mem_cons, Call.receive.injEq, List.not_mem_nil, or_false] at hf'
    rcases hf' with rfl | rfl
    · exact hf
    · exact hg

/-- The macros of a HELO. -/
def sampleHeloMacros : Frame :=
  ⟨byte 'D', byte 'H' :: ascii "a" ++ [0] ++ ascii "1" ++ [0]⟩

/-- A HELO, with macros in force before it is sent a second time. -/
def sampleHelo : Frame := ⟨byte 'H', ascii "mx" ++ [0]⟩

end Session

end MtaHooks
