import MtaHooks.Session.Transitions

namespace MtaHooks

open FallibleState

/-!
# What a refused call leaves behind

A refused frame ends the connection in the driver, but the session can be called again, and a
refused decision is followed by the fallback on the same session.  The view leaves out the macro
batches, which a refused command takes with it, and the byte counts.

* `receive_error` — a refused frame leaves the view of the session as it was, or, for a
  MAIL over budget in `ready`, that of the session without its transaction;
* `receive_charges` — besides, it does not take back what was charged for the message;
* `complete_error` — a refused decision changes nothing.
-/

namespace Session

/-! ### The view -/

/-- All but the macro batches and the byte counters, which a refused frame may change. -/
def view (s : Session) : Session :=
  { s with
    message := { s.message with bytes := 0, envelopeBytes := 0 }
    macros := .empty
    pendingMacros := .empty }

/-- The sessions agree on their view. -/
def SameView (s t : Session) : Prop := s.view = t.view

instance : Trans SameView SameView SameView := ⟨fun h h' => Eq.trans h h'⟩

/-- The sessions agree on their view, and nothing charged for the message was taken back. -/
structure Charges (s t : Session) : Prop where
  same : SameView s t
  bytes : s.message.bytes ≤ t.message.bytes

instance : Std.Refl Charges := ⟨fun _ => ⟨rfl, le_rfl⟩⟩

instance : Trans Charges Charges Charges :=
  ⟨fun h h' => ⟨h.same.trans h'.same, h.bytes.trans h'.bytes⟩⟩

/-- The check of the state charges nothing. -/
private theorem keeps_require (cmd : UInt8) (states : List State) :
    Keeps Charges (require cmd states) :=
  .bind .get fun _ => .failIf _ _

/-- What a body is charged stays charged if it is refused. -/
private theorem keeps_account (n : ℕ) : Keeps Charges (account n) := by
  intro s
  show Charges s ((lift (okOr (checkedAdd s.message.bytes n) (.limit "message")) >>= _) s).2
  cases hadd : checkedAdd s.message.bytes n with
  | none => exact ⟨rfl, le_rfl⟩
  | some total =>
    obtain rfl := checkedAdd_eq_some hadd
    have hgrows : Charges s { s with message := { s.message with bytes := s.message.bytes + n } } :=
      ⟨rfl, Nat.le_add_right _ _⟩
    have hcheck : Keeps Charges
        (failIf (s.limits.messageBytes < s.message.bytes + n) (.limit "message") : SessionM Unit) :=
      .failIf _ _
    exact Trans.trans hgrows (hcheck _)

/-- What an envelope is charged stays charged if it is refused. -/
private theorem keeps_accountEnvelope (fields : List Bytes) :
    Keeps Charges (accountEnvelope fields) := by
  induction fields with
  | nil => exact .bind .get fun _ => .failIf _ _
  | cons field fields ih =>
    exact .bind .get fun _ => .bind (.lift _) fun _ =>
      .bind (.modify fun _ => ⟨rfl, le_rfl⟩) fun _ => ih

/-- The arm of a command fails before it changes the view. -/
theorem arm_failsWithin (op : UInt8) (c : Command) : FailsWithin Charges (arm op c) := by
  cases c with
  | connect info => exact .bind (keeps_require _ _) fun _ => .modify_pure _ _
  | helo helo => exact .bind (keeps_require _ _) fun _ => .modify_pure _ _
  | mail fields =>
    exact .bind (keeps_accountEnvelope _) fun _ => .bind (.lift _) fun _ => .modify_pure _ _
  | recipient fields =>
    exact .bind (keeps_require _ _) fun _ => .bind (keeps_accountEnvelope _) fun _ =>
      .bind .get fun _ => .bind (.failIf _ _) fun _ => .bind (.lift _) fun _ => .modify_pure _ _
  | data => exact .bind (keeps_require _ _) fun _ => .modify_pure _ _
  | header name value =>
    exact .bind (keeps_require _ _) fun _ => .bind .get fun _ => .bind (.failIf _ _) fun _ =>
      .bind (keeps_account _) fun _ => .modify_pure _ _
  | endHeaders =>
    exact .bind (keeps_require _ _) fun _ => .bind (keeps_account _) fun _ => .modify_pure _ _
  | body chunk =>
    exact .bind (keeps_require _ _) fun _ => .bind (keeps_account _) fun _ => .modify_pure _ _
  | endMessage => exact .bind (keeps_require _ _) fun _ => .pure _
  | abort => exact .of_ok fun _ => ⟨_, rfl⟩
  | quitNewConnection => exact .of_ok fun _ => ⟨_, rfl⟩
  | quit => exact .of_ok fun _ => ⟨_, rfl⟩
  | unknown text => exact .pure _
  | negotiate offered => exact (Keeps.fail _).failsWithin
  | macros stage values => exact (Keeps.fail _).failsWithin

/-- The prelude of MAIL fails before it changes the view. -/
theorem mailPrelude_failsWithin (op : UInt8) (c : Command) :
    FailsWithin Charges (mailPrelude op c) := by
  cases c with
  | mail fields =>
    exact .bind .get fun _ => .bind (.modify fun _ => ⟨rfl, le_rfl⟩) fun _ =>
      .bind (keeps_require _ _) fun _ => .of_ok fun _ => ⟨_, rfl⟩
  | _ => exact .pure _

/-- The reply tail of a negotiated session does not fail. -/
theorem finish_error {out : Outcome} {s t : Session} {e : Error}
    (h : finish out s = (.error e, t)) : s.options = none := by
  rcases bind_error_iff.mp h with h | ⟨_, _, hget, h⟩
  · exact nomatch h
  obtain ⟨rfl, rfl⟩ := get_ok_iff.mp hget
  cases hr : raised s.stages out.event with
  | some stage => simp only [hr] at h; exact nomatch h
  | none =>
    cases hb : out.replyBit with
    | none => simp only [hr, hb] at h; exact nomatch h
    | some b =>
      simp only [hr, hb] at h
      rcases bind_error_iff.mp h with h | ⟨_, _, -, h⟩
      · cases ho : s.options with
        | none => rfl
        | some o => rw [ho] at h; exact nomatch h
      · exact nomatch h

/-- No command but a negotiation changes the options. -/
theorem Performs.options {s u : Session} {c : Command} (h : Performs s c u) :
    u.options = s.options := by
  cases h <;> rfl

/-- A refused command leaves the view as it was; a refused MAIL may have dropped the
    transaction, in a session that had none. -/
theorem dispatch_error {c : Command} {s t : Session} {e : Error} (hoptions : s.options.isSome)
    (h : dispatch c.opcode c s = (.error e, t)) :
    Charges s t ∨ s.state = .ready ∧ Charges s.resetMessage t := by
  rcases bind_error_iff.mp h with h | ⟨_, s₁, hmail, h⟩
  · exact .inl (mailPrelude_failsWithin _ _ s e t h)
  replace h := modify_bind_error_iff.mp h
  rcases bind_error_iff.mp h with h | ⟨out, u, harm, h⟩
  · have hview : Charges (s₁.activateMacros c.opcode) t := arm_failsWithin _ _ _ e t h
    cases c with
    | mail fields =>
      obtain ⟨hstate, hstart⟩ := mailPrelude_ok hmail
      rw [show Command.opcode (.mail fields) = byte 'M' from rfl, hstart] at hview
      exact .inr ⟨hstate, hview.same, hview.bytes⟩
    | _ =>
      obtain ⟨-, rfl⟩ := pure_ok_iff.mp hmail
      exact .inl ⟨hview.same, hview.bytes⟩
  · obtain ⟨-, hperforms⟩ := performs_of_ok rfl hmail harm
    have hnone := finish_error h
    rw [hperforms.options] at hnone
    rw [hnone] at hoptions
    exact nomatch hoptions

/-- A refused negotiation changes nothing. -/
private theorem negotiate_failsWithin (op : UInt8) (offered : Options) :
    FailsWithin Charges (negotiate op offered) :=
  .bind (keeps_require _ _) fun _ => .bind (.failIf _ _) fun _ => .bind .get fun _ =>
    .bind (.lift _) fun _ => .modify_pure _ _

/-- The macros charge nothing but themselves. -/
private theorem keeps_defineMacros (stage : UInt8) (values : List (Bytes × Bytes)) :
    Keeps Charges (defineMacros stage values) :=
  .bind (.modify fun _ => ⟨rfl, le_rfl⟩) fun _ => .bind .get fun _ =>
    .bind (.failIf _ _) fun _ => .pure _

/-- A refused frame takes back no charge, but for a MAIL in `ready`. -/
theorem receive_charges {f : Frame} {s t : Session} {e : Error}
    (hoptions : s.state ≠ .initial → s.options.isSome) (h : receive f s = (.error e, t)) :
    Charges s t ∨ s.pending = none ∧ s.state = .ready ∧ Charges s.resetMessage t := by
  cases receive_refuses h with
  | awaiting => exact .inl ⟨rfl, le_rfl⟩
  | malformed => exact .inl ⟨rfl, le_rfl⟩
  | closed => exact .inl ⟨rfl, le_rfl⟩
  | early => exact .inl ⟨rfl, le_rfl⟩
  | negotiate h => exact .inl (negotiate_failsWithin _ _ s e t h)
  | macros hstate h => exact .inl ((keeps_defineMacros _ _).failsWithin s e t h)
  | dispatch hpending hc hstate hnegotiate hmacros h =>
    rcases dispatch_error (hoptions hstate) h with hsame | ⟨hready, hsame⟩
    · exact .inl hsame
    · exact .inr ⟨hpending, hready, hsame⟩

/-- **What a refused frame leaves behind.**  The view is as it was, or, for a MAIL in
    `ready`, that of the session without its transaction. -/
theorem receive_error {f : Frame} {s t : Session} {e : Error}
    (hoptions : s.state ≠ .initial → s.options.isSome) (h : receive f s = (.error e, t)) :
    SameView s t ∨ s.pending = none ∧ s.state = .ready ∧ SameView s.resetMessage t := by
  rcases receive_charges hoptions h with hcharges | ⟨hpending, hready, hcharges⟩
  · exact .inl hcharges.same
  · exact .inr ⟨hpending, hready, hcharges.same⟩

/-! ### Decisions -/

instance : Trans (@Eq Session) (@Eq Session) (@Eq Session) := ⟨Eq.trans⟩

/-- **A refused decision changes nothing.** -/
theorem complete_error {d : Decision} {s t : Session} {e : Error}
    (h : complete d s = (.error e, t)) : t = s := by
  have hfails : FailsWithin (@Eq Session) (complete d) :=
    .bind .get fun _ => .bind (.lift _) fun _ => .bind (.lift _) fun _ => .bind (.failIf _ _)
      fun _ => .bind (.failIf _ _) fun _ => .bind (.lift _) fun _ => .bind (.lift _) fun _ =>
        .bind (.failIf _ _) fun _ => .modify_pure _ _
  exact (hfails s e t h).symm

/-- A refused decision changes nothing. -/
theorem complete_of_error {d : Decision} {s : Session} {e : Error}
    (h : (complete d s).1 = .error e) : complete d s = (.error e, s) := by
  rcases hr : complete d s with ⟨r, t⟩
  rw [hr] at h
  obtain rfl : r = .error e := h
  rw [complete_error hr]

end Session

end MtaHooks
