import MtaHooks.Session.Receive
import MtaHooks.Session.Complete

namespace MtaHooks

open FallibleState

/-!
# What a call can do to a session

The transition system behind `receive` and `complete`, stated once for all invariants:

* `Performs s c u` — the arm of command `c` takes session `s` to `u`: one constructor for
  each command, with the states that allow it and every field it changes;
* `Accepts s c step t` — command `c` is accepted with the answer `step`;
* `receive_ok` — every successful `receive` is such a transition;
* `receive_refuses` / `complete_declines` — where a frame, or a decision, is refused;
* `complete_ok` / `complete_of_completes` — a decision succeeds exactly when all of its parts
  can be encoded, and then the session settles.
-/

/-! ### Callback and no-reply bit of a command -/

namespace Command

/-- The callback stage of a command. -/
def stage : Command → Option Stage
  | .connect _ => some .connect
  | .helo _ => some .helo
  | .mail _ => some .mail
  | .recipient _ => some .recipient
  | .endMessage => some .endMessage
  | _ => none

/-- The bit that suppresses the reply to a command. -/
def replyBit : Command → Option UInt32
  | .connect _ => some nrConnect
  | .helo _ => some nrHelo
  | .mail _ => some nrMail
  | .recipient _ => some nrRcpt
  | .data => some nrData
  | .header .. => some nrHeader
  | .endHeaders => some nrEoh
  | .body _ => some nrBody
  | .unknown _ => some nrUnknown
  | _ => none

/-- The command closes the connection. -/
def closes : Command → Bool
  | .quit => true
  | _ => false

end Command

namespace Session

/-! ### The primitives -/

/-- An accepted state is one of those required. -/
theorem require_ok {cmd : UInt8} {states : List State} {s t : Session} {u : Unit}
    (h : require cmd states s = (.ok u, t)) : s.state ∈ states ∧ s = t := by
  have h' : ¬ s.state ∉ states ∧ s = t := failIf_ok_iff.mp h
  exact ⟨not_not.mp h'.1, h'.2⟩

/-- What follows the check of a state is reached in one of those required. -/
theorem require_bind_ok {α : Type} {cmd : UInt8} {states : List State} {s t : Session}
    {k : Unit → SessionM α} {b : α} (h : (require cmd states >>= k) s = (.ok b, t)) :
    s.state ∈ states ∧ k () s = (.ok b, t) := by
  obtain ⟨_, _, hreq, h⟩ := bind_ok_iff.mp h
  obtain ⟨hstate, rfl⟩ := require_ok hreq
  exact ⟨hstate, h⟩

/-- What is charged to the message fits, and is counted. -/
theorem account_ok {n : ℕ} {s t : Session} {u : Unit} (h : account n s = (.ok u, t)) :
    s.message.bytes + n ≤ s.limits.messageBytes ∧
      t = { s with message := { s.message with bytes := s.message.bytes + n } } := by
  replace h := get_bind_ok_iff.mp h
  obtain ⟨total, hsum, h⟩ := lift_bind_ok_iff.mp h
  obtain rfl := checkedAdd_eq_some (okOr_eq_ok.mp hsum)
  replace h := modify_bind_ok_iff.mp h
  obtain ⟨hle, rfl⟩ := failIf_ok_iff.mp h
  exact ⟨not_lt.mp hle, rfl⟩

/-- The envelope bytes of one MAIL or RCPT: its fields with one terminator each. -/
def envelopeCost (fields : List Bytes) : ℕ := (fields.map fun f => f.length + 1).sum

/-- What is charged to the envelope fits, and is counted. -/
theorem accountEnvelope_ok {fields : List Bytes} {s t : Session} {u : Unit}
    (h : accountEnvelope fields s = (.ok u, t)) :
    s.message.envelopeBytes + envelopeCost fields ≤ s.limits.envelopeBytes ∧
      t = { s with
            message := { s.message with
              envelopeBytes := s.message.envelopeBytes + envelopeCost fields } } := by
  induction fields generalizing s with
  | nil =>
    have h' : ¬ s.limits.envelopeBytes < s.message.envelopeBytes ∧ s = t := failIf_ok_iff.mp h
    exact ⟨not_lt.mp h'.1, h'.2.symm⟩
  | cons field fields ih =>
    replace h := get_bind_ok_iff.mp h
    obtain ⟨total, hsum, h⟩ := lift_bind_ok_iff.mp h
    obtain rfl := checkedAdd_eq_some (okOr_eq_ok.mp hsum)
    replace h := modify_bind_ok_iff.mp h
    obtain ⟨hle, rfl⟩ := ih h
    have hcost : s.message.envelopeBytes + (field.length + 1) + envelopeCost fields =
        s.message.envelopeBytes + envelopeCost (field :: fields) := by
      simp only [envelopeCost, List.map_cons, List.sum_cons]
      omega
    exact ⟨hcost ▸ hle, by rw [← hcost]⟩

/-- The fields of an envelope command are the address and its parameters. -/
theorem EnvelopeAddress.from_ok {fields : List Bytes} {a : EnvelopeAddress}
    (h : EnvelopeAddress.from fields = .ok a) : fields = a.address :: a.parameters := by
  cases fields with
  | nil => exact nomatch h
  | cons address parameters => obtain rfl := Except.ok.inj h; rfl

/-! ### The reply tail -/

/-- The command is owed a reply by the negotiated protocol word. -/
def promised (options : Option Options) (bit : Option UInt32) : Bool :=
  match options, bit with
  | some o, some b => o.protocol &&& b = 0
  | _, _ => false

/-- A stage is raised if it is subscribed, and the end of a message always. -/
theorem raised_eq_some {stages : List Stage} {event : Option Stage} {stage : Stage} :
    raised stages event = some stage ↔
      event = some stage ∧ (stage = .endMessage ∨ stage ∈ stages) := by
  simp [raised, Option.filter_eq_some_iff]

/-- The answer to a command whose arm ended in `u`. -/
def answer (u : Session) (c : Command) : Step :=
  match raised u.stages c.stage with
  | some stage => { event := some stage, close := c.closes }
  | none =>
    { frames := if promised u.options c.replyBit then [Frame.empty (byte 'c')] else []
      close := c.closes }

/-- The session after the reply tail. -/
def awaiting (u : Session) (c : Command) : Session :=
  match raised u.stages c.stage with
  | some stage => { u with pending := some stage }
  | none => u

/-- What the arm of a command leaves for the reply tail. -/
def outcome (c : Command) : Outcome := ⟨c.stage, c.replyBit, c.closes⟩

/-- A command without callback and reply leaves the tail nothing to do. -/
theorem answer_silent (u : Session) {c : Command} (hstage : c.stage = none)
    (hbit : c.replyBit = none) : u.answer c = { close := c.closes } ∧ u.awaiting c = u := by
  have hraised : raised u.stages c.stage = none := by rw [hstage]; rfl
  unfold answer awaiting
  rw [hraised, hbit]
  cases u.options <;> exact ⟨rfl, rfl⟩

/-- An accepted command is answered, or awaits its decision. -/
theorem finish_ok {c : Command} {u t : Session} {step : Step}
    (h : finish (outcome c) u = (.ok step, t)) : step = u.answer c ∧ t = u.awaiting c := by
  replace h := get_bind_ok_iff.mp h
  simp only [outcome] at h
  unfold answer awaiting
  cases hr : raised u.stages c.stage with
  | some stage =>
    simp only [hr] at h
    obtain ⟨rfl, rfl⟩ := modify_pure_ok_iff.mp h
    exact ⟨rfl, rfl⟩
  | none =>
    simp only [hr] at h
    cases hb : c.replyBit with
    | none =>
      simp only [hb] at h
      obtain ⟨rfl, rfl⟩ := pure_ok_iff.mp h
      cases u.options <;> exact ⟨rfl, rfl⟩
    | some b =>
      simp only [hb] at h
      obtain ⟨options, hsome, h⟩ := lift_bind_ok_iff.mp h
      obtain ⟨rfl, rfl⟩ := pure_ok_iff.mp h
      rw [okOr_eq_ok.mp hsome]
      by_cases hp : options.protocol &&& b = 0 <;> simp [promised, hp]

/-! ### The arms -/

/-- The session in which the arm of MAIL runs: transaction dropped, CONNECT and HELO macros
    kept, the batch defined for this MAIL active. -/
def startMail (s : Session) : Session :=
  { s.resetMessage with
    macros := s.macros.retain.set (byte 'M') (s.pendingMacros (byte 'M'))
    pendingMacros := s.pendingMacros.retain }

/-- An accepted MAIL starts from a new transaction, with its own macros. -/
theorem mailPrelude_ok {opcode : UInt8} {fields : List Bytes} {s t : Session} {u : Unit}
    (h : mailPrelude opcode (.mail fields) s = (.ok u, t)) :
    s.state = .ready ∧ t.activateMacros (byte 'M') = s.startMail := by
  replace h := get_bind_ok_iff.mp h
  replace h := modify_bind_ok_iff.mp h
  obtain ⟨hstate, h⟩ := require_bind_ok h
  replace h := modify_bind_ok_iff.mp h
  obtain rfl := modify_ok_iff.mp h
  refine ⟨List.mem_singleton.mp hstate, ?_⟩
  have hC : byte 'M' ≠ byte 'C' := by decide
  have hH : byte 'M' ≠ byte 'H' := by decide
  simp only [activateMacros, resetMessage, startMail, Batches.set_same, Batches.set_set,
    Batches.retain_set _ _ hC hH, Batches.retain_set_none _ hC hH]

/-- A change of the state under a condition. -/
private theorem ite_ready (s : Session) (c : Prop) [Decidable c] :
    (if c then { s with state := .ready } else s) =
      { s with state := if c then .ready else s.state } := by
  split <;> rfl

/-- The arm of a command takes a session to the one before the reply tail. -/
inductive Performs (s : Session) : Command → Session → Prop
  | connect {info : Connection} (hstate : s.state = .negotiated) :
    Performs s (.connect info)
      { s.activateMacros (byte 'C') with connection := some info, state := .ready }
  | helo {helo : Bytes} (hstate : s.state = .ready) :
    Performs s (.helo helo) { s.activateMacros (byte 'H') with helo := some helo }
  | mail {address : Bytes} {parameters : List Bytes} (hstate : s.state = .ready)
      (hbudget : envelopeCost (address :: parameters) ≤ s.limits.envelopeBytes) :
    Performs s (.mail (address :: parameters))
      { s.startMail with
        message :=
          { sender := some ⟨address, parameters⟩
            envelopeBytes := envelopeCost (address :: parameters) }
        state := .mail }
  | recipient {address : Bytes} {parameters : List Bytes}
      (hstate : s.state = .mail ∨ s.state = .recipients)
      (hbudget : s.message.envelopeBytes + envelopeCost (address :: parameters) ≤
        s.limits.envelopeBytes)
      (hcount : s.message.recipients.length < s.limits.recipients) :
    Performs s (.recipient (address :: parameters))
      { s.activateMacros (byte 'R') with
        message :=
          { s.message with
            recipients := s.message.recipients ++ [⟨address, parameters⟩]
            envelopeBytes := s.message.envelopeBytes + envelopeCost (address :: parameters) }
        state := .recipients }
  | data (hstate : s.state = .recipients) :
    Performs s .data { s.activateMacros (byte 'T') with state := .data }
  | header {name value : Bytes} (hstate : s.state = .data ∨ s.state = .headers)
      (hcount : s.message.headers.length < s.limits.headers)
      (hbudget : s.message.bytes + (name.length + value.length + 4) ≤ s.limits.messageBytes) :
    Performs s (.header name value)
      { s.activateMacros (byte 'L') with
        message :=
          { s.message with
            headers := s.message.headers ++ [(name, value)]
            bytes := s.message.bytes + (name.length + value.length + 4) }
        state := .headers }
  | endHeaders (hstate : s.state = .data ∨ s.state = .headers)
      (hbudget : s.message.bytes + 2 ≤ s.limits.messageBytes) :
    Performs s .endHeaders
      { s.activateMacros (byte 'N') with
        message := { s.message with bytes := s.message.bytes + 2 }
        state := .body }
  | body {chunk : Bytes} (hstate : s.state = .body)
      (hbudget : s.message.bytes + chunk.length ≤ s.limits.messageBytes) :
    Performs s (.body chunk)
      { s.activateMacros (byte 'B') with
        message :=
          { s.message with
            body := s.message.body ++ chunk
            bytes := s.message.bytes + chunk.length } }
  | endMessage (hstate : s.state = .body) :
    Performs s .endMessage (s.activateMacros (byte 'E'))
  | abort :
    Performs s .abort
      { (s.activateMacros (byte 'A')).resetMessage with
        state := if s.connection.isSome ∧ s.state ≠ .stopped then .ready else s.state }
  | quit :
    Performs s .quit { (s.activateMacros (byte 'Q')).resetMessage with state := .closed }
  | quitNewConnection :
    Performs s .quitNewConnection
      { s.resetMessage with
        connection := none
        helo := none
        macros := .empty
        pendingMacros := .empty
        state := .negotiated }
  | unknown {text : Bytes} : Performs s (.unknown text) (s.activateMacros (byte 'U'))

/-- The prelude of MAIL, the macro batch and the arm of a command, in sequence. -/
theorem performs_of_ok {c : Command} {s t u : Session} {op : UInt8} {p : Unit} {out : Outcome}
    (hop : op = c.opcode) (hmail : mailPrelude op c s = (.ok p, t))
    (harm : arm op c (t.activateMacros op) = (.ok out, u)) :
    out = outcome c ∧ Performs s c u := by
  subst hop
  cases c with
  | mail fields =>
    obtain ⟨hstate, hstart⟩ := mailPrelude_ok hmail
    rw [show Command.opcode (.mail fields) = byte 'M' from rfl, hstart] at harm
    obtain ⟨_, _, hacc, h⟩ := bind_ok_iff.mp harm
    obtain ⟨hbudget, rfl⟩ := accountEnvelope_ok hacc
    obtain ⟨sender, hfields, h⟩ := lift_bind_ok_iff.mp h
    obtain rfl := EnvelopeAddress.from_ok hfields
    obtain ⟨rfl, rfl⟩ := modify_pure_ok_iff.mp h
    have hzero : s.startMail.message.envelopeBytes = 0 := rfl
    rw [hzero, Nat.zero_add] at hbudget
    refine ⟨rfl, ?_⟩
    rw [hzero, Nat.zero_add]
    exact .mail hstate hbudget
  | connect info =>
    obtain ⟨-, rfl⟩ := pure_ok_iff.mp hmail
    obtain ⟨hstate, h⟩ := require_bind_ok harm
    obtain ⟨rfl, rfl⟩ := modify_pure_ok_iff.mp h
    exact ⟨rfl, .connect (List.mem_singleton.mp hstate)⟩
  | helo helo =>
    obtain ⟨-, rfl⟩ := pure_ok_iff.mp hmail
    obtain ⟨hstate, h⟩ := require_bind_ok harm
    obtain ⟨rfl, rfl⟩ := modify_pure_ok_iff.mp h
    exact ⟨rfl, .helo (List.mem_singleton.mp hstate)⟩
  | recipient fields =>
    obtain ⟨-, rfl⟩ := pure_ok_iff.mp hmail
    obtain ⟨hstate, h⟩ := require_bind_ok harm
    obtain ⟨_, _, hacc, h⟩ := bind_ok_iff.mp h
    obtain ⟨hbudget, rfl⟩ := accountEnvelope_ok hacc
    replace h := get_bind_ok_iff.mp h
    obtain ⟨hlt, h⟩ := failIf_bind_ok_iff.mp h
    obtain ⟨recipient, hfields, h⟩ := lift_bind_ok_iff.mp h
    obtain rfl := EnvelopeAddress.from_ok hfields
    obtain ⟨rfl, rfl⟩ := modify_pure_ok_iff.mp h
    exact ⟨rfl, .recipient (by simpa using hstate) hbudget (not_le.mp hlt)⟩
  | data =>
    obtain ⟨-, rfl⟩ := pure_ok_iff.mp hmail
    obtain ⟨hstate, h⟩ := require_bind_ok harm
    obtain ⟨rfl, rfl⟩ := modify_pure_ok_iff.mp h
    exact ⟨rfl, .data (List.mem_singleton.mp hstate)⟩
  | header name value =>
    obtain ⟨-, rfl⟩ := pure_ok_iff.mp hmail
    obtain ⟨hstate, h⟩ := require_bind_ok harm
    replace h := get_bind_ok_iff.mp h
    obtain ⟨hlt, h⟩ := failIf_bind_ok_iff.mp h
    obtain ⟨_, _, hacc, h⟩ := bind_ok_iff.mp h
    obtain ⟨hbudget, rfl⟩ := account_ok hacc
    obtain ⟨rfl, rfl⟩ := modify_pure_ok_iff.mp h
    exact ⟨rfl, .header (by simpa using hstate) (not_le.mp hlt) hbudget⟩
  | endHeaders =>
    obtain ⟨-, rfl⟩ := pure_ok_iff.mp hmail
    obtain ⟨hstate, h⟩ := require_bind_ok harm
    obtain ⟨_, _, hacc, h⟩ := bind_ok_iff.mp h
    obtain ⟨hbudget, rfl⟩ := account_ok hacc
    obtain ⟨rfl, rfl⟩ := modify_pure_ok_iff.mp h
    exact ⟨rfl, .endHeaders (by simpa using hstate) hbudget⟩
  | body chunk =>
    obtain ⟨-, rfl⟩ := pure_ok_iff.mp hmail
    obtain ⟨hstate, h⟩ := require_bind_ok harm
    obtain ⟨_, _, hacc, h⟩ := bind_ok_iff.mp h
    obtain ⟨hbudget, rfl⟩ := account_ok hacc
    obtain ⟨rfl, rfl⟩ := modify_pure_ok_iff.mp h
    exact ⟨rfl, .body (List.mem_singleton.mp hstate) hbudget⟩
  | endMessage =>
    obtain ⟨-, rfl⟩ := pure_ok_iff.mp hmail
    obtain ⟨hstate, h⟩ := require_bind_ok harm
    obtain ⟨rfl, rfl⟩ := pure_ok_iff.mp h
    exact ⟨rfl, .endMessage (List.mem_singleton.mp hstate)⟩
  | abort =>
    obtain ⟨-, rfl⟩ := pure_ok_iff.mp hmail
    have h := modify_bind_ok_iff.mp harm
    obtain ⟨rfl, rfl⟩ := modify_pure_ok_iff.mp h
    refine ⟨rfl, ?_⟩
    rw [ite_ready]
    exact .abort
  | quit =>
    obtain ⟨-, rfl⟩ := pure_ok_iff.mp hmail
    have h := modify_bind_ok_iff.mp harm
    obtain ⟨rfl, rfl⟩ := modify_pure_ok_iff.mp h
    exact ⟨rfl, .quit⟩
  | quitNewConnection =>
    obtain ⟨-, rfl⟩ := pure_ok_iff.mp hmail
    have h := modify_bind_ok_iff.mp harm
    obtain ⟨rfl, rfl⟩ := modify_pure_ok_iff.mp h
    exact ⟨rfl, .quitNewConnection⟩
  | unknown text =>
    obtain ⟨-, rfl⟩ := pure_ok_iff.mp hmail
    obtain ⟨rfl, rfl⟩ := pure_ok_iff.mp harm
    exact ⟨rfl, .unknown⟩
  | negotiate offered => exact nomatch harm
  | macros stage values => exact nomatch harm

/-! ### Accepted frames -/

/-- A command is accepted with an answer and a next session. -/
inductive Accepts (s : Session) : Command → Step → Session → Prop
  | negotiate {offered : Options} {reply : Frame} (hstate : s.state = .initial)
      (hversion : version ≤ offered.version)
      (hreply : (s.negotiated offered).frameWithMacros s.macroLists = .ok reply) :
    Accepts s (.negotiate offered) { frames := [reply] }
      { s with options := some (s.negotiated offered), state := .negotiated }
  | macros {stage : UInt8} {values : List (Bytes × Bytes)} (hstate : s.state ≠ .initial)
      (hbudget : s.macros.size + (s.pendingMacros.set stage (some (.collect values))).size ≤
        s.limits.macroBytes) :
    Accepts s (.macros stage values) {}
      { s with pendingMacros := s.pendingMacros.set stage (some (.collect values)) }
  | perform {c : Command} {u : Session} (hstate : s.state ≠ .initial) (hperforms : Performs s c u) :
    Accepts s c (u.answer c) (u.awaiting c)

/-- A frame that raises a callback has no reply yet and does not close. -/
theorem Accepts.event {s t : Session} {c : Command} {step : Step} {stage : Stage}
    (h : Accepts s c step t) (hevent : step.event = some stage) :
    t.pending = some stage ∧ c.stage = some stage ∧ (stage = .endMessage ∨ stage ∈ t.stages) ∧
      step = { event := some stage } := by
  cases h with
  | negotiate _ _ _ => exact nomatch hevent
  | macros _ _ => exact nomatch hevent
  | @perform _ u _ _ =>
    unfold answer at hevent ⊢
    unfold awaiting
    cases hr : raised u.stages c.stage with
    | none => simp [hr] at hevent
    | some stage' =>
      obtain rfl : stage' = stage := by simpa [hr] using hevent
      obtain ⟨hstage, hsub⟩ := raised_eq_some.mp hr
      have hcloses : c.closes = false := by cases c <;> first | rfl | exact nomatch hstage
      exact ⟨rfl, hstage, hsub, by simp [hcloses]⟩

/-- A command that is dispatched is accepted as one of the cases. -/
theorem accepts_of_dispatch {c : Command} {s t : Session} {step : Step}
    (hstate : s.state ≠ .initial) (h : dispatch c.opcode c s = (.ok step, t)) :
    Accepts s c step t := by
  obtain ⟨_, s₁, hmail, h⟩ := bind_ok_iff.mp h
  replace h := modify_bind_ok_iff.mp h
  obtain ⟨out, u, harm, h⟩ := bind_ok_iff.mp h
  obtain ⟨rfl, hperforms⟩ := performs_of_ok rfl hmail harm
  obtain ⟨rfl, rfl⟩ := finish_ok h
  exact .perform hstate hperforms

/-- An accepted command is one of the cases. -/
theorem accepts_of_accept {c : Command} {s t : Session} {step : Step}
    (h : accept c.opcode c s = (.ok step, t)) : Accepts s c step t := by
  unfold accept at h
  split at h
  · obtain ⟨hstate, h⟩ := require_bind_ok h
    obtain ⟨hversion, h⟩ := failIf_bind_ok_iff.mp h
    replace h := get_bind_ok_iff.mp h
    obtain ⟨reply, hreply, h⟩ := lift_bind_ok_iff.mp h
    obtain ⟨rfl, rfl⟩ := modify_pure_ok_iff.mp h
    exact .negotiate (List.mem_singleton.mp hstate) (UInt32.not_lt.mp hversion) hreply
  · replace h := get_bind_ok_iff.mp h
    obtain ⟨hstate, h⟩ := failIf_bind_ok_iff.mp h
    replace h := modify_bind_ok_iff.mp h
    obtain ⟨_, _, hget', h⟩ := bind_ok_iff.mp h
    obtain ⟨rfl, rfl⟩ := get_ok_iff.mp hget'
    obtain ⟨hbudget, h⟩ := failIf_bind_ok_iff.mp h
    obtain ⟨rfl, rfl⟩ := pure_ok_iff.mp h
    exact .macros hstate (not_lt.mp hbudget)
  · replace h := get_bind_ok_iff.mp h
    obtain ⟨hstate, h⟩ := failIf_bind_ok_iff.mp h
    exact accepts_of_dispatch hstate h

/-- **Every accepted frame is a transition.** -/
theorem receive_ok {f : Frame} {s t : Session} {step : Step} (h : receive f s = (.ok step, t)) :
    ∃ c, Command.decode f = .ok c ∧ s.pending = none ∧ s.state ≠ .closed ∧ Accepts s c step t := by
  replace h := get_bind_ok_iff.mp h
  obtain ⟨hnone, h⟩ := failIf_bind_ok_iff.mp h
  obtain ⟨c, hc, h⟩ := lift_bind_ok_iff.mp h
  obtain ⟨hopen, h⟩ := failIf_bind_ok_iff.mp h
  rw [Command.decode_opcode hc] at h
  exact ⟨c, hc, Option.not_isSome_iff_eq_none.mp hnone, hopen, accepts_of_accept h⟩

/-- Where a frame is refused, with the error and the session that it leaves. -/
inductive Refuses (f : Frame) (s : Session) : Error → Session → Prop
  | awaiting (hpending : s.pending.isSome) :
      Refuses f s (.invalid "callback has no decision yet") s
  | malformed {e : Error} (hf : Command.decode f = .error e) : Refuses f s e s
  | closed (hstate : s.state = .closed) : Refuses f s (.invalid "closed session") s
  | early (hstate : s.state = .initial) : Refuses f s (.invalid "negotiate first") s
  | negotiate {op : UInt8} {offered : Options} {e : Error} {t : Session}
      (h : Session.negotiate op offered s = (.error e, t)) : Refuses f s e t
  | macros {stage : UInt8} {values : List (Bytes × Bytes)} {e : Error} {t : Session}
      (hstate : s.state ≠ .initial) (h : defineMacros stage values s = (.error e, t)) :
      Refuses f s e t
  | dispatch {c : Command} {e : Error} {t : Session} (hpending : s.pending = none)
      (hc : Command.decode f = .ok c) (hstate : s.state ≠ .initial)
      (hnegotiate : ∀ offered, c ≠ .negotiate offered)
      (hmacros : ∀ stage values, c ≠ .macros stage values)
      (h : Session.dispatch c.opcode c s = (.error e, t)) : Refuses f s e t

/-- **Every refused frame is refused somewhere.** -/
theorem receive_refuses {f : Frame} {s t : Session} {e : Error}
    (h : receive f s = (.error e, t)) : Refuses f s e t := by
  replace h := get_bind_error_iff.mp h
  rcases failIf_bind_error_iff.mp h with ⟨hpending, rfl, rfl⟩ | ⟨hpending, h⟩
  · exact .awaiting hpending
  rcases lift_bind_error_iff.mp h with ⟨hf, rfl⟩ | ⟨c, hc, h⟩
  · exact .malformed hf
  rcases failIf_bind_error_iff.mp h with ⟨hclosed, rfl, rfl⟩ | ⟨-, h⟩
  · exact .closed hclosed
  rw [Command.decode_opcode hc] at h
  unfold accept at h
  split at h
  · exact .negotiate h
  · replace h := get_bind_error_iff.mp h
    rcases failIf_bind_error_iff.mp h with ⟨hinitial, rfl, rfl⟩ | ⟨hstate, h⟩
    · exact .early hinitial
    · exact .macros hstate h
  next hnegotiate hmacros =>
    replace h := get_bind_error_iff.mp h
    rcases failIf_bind_error_iff.mp h with ⟨hinitial, rfl, rfl⟩ | ⟨hstate, h⟩
    · exact .early hinitial
    · exact .dispatch (Option.not_isSome_iff_eq_none.mp hpending) hc hstate hnegotiate hmacros h

/-! ### Decisions -/

/-- The frames that the budget takes are put behind the others. -/
theorem budgetFrames_ok {limits : Limits} {fs out : List Frame} {acc : List Frame × ℕ} {n : ℕ}
    (h : budgetFrames limits fs acc = .ok (out, n)) : out = acc.1 ++ fs := by
  induction fs generalizing acc with
  | nil =>
    obtain rfl := Except.ok.inj h
    exact (List.append_nil out).symm
  | cons f fs ih =>
    unfold budgetFrames at h
    obtain ⟨-, h⟩ := (Result.ite_ok h).resolve_left fun ⟨_, h⟩ => nomatch h
    obtain ⟨bytes, -, h⟩ := Result.bind_ok_iff.mp h
    obtain ⟨-, h⟩ := (Result.ite_ok h).resolve_left fun ⟨_, h⟩ => nomatch h
    rw [ih h]
    exact List.append_assoc _ _ _

/-- A modification that is taken puts its frames behind the others. -/
theorem modificationStep_ok {limits : Limits} {actions : UInt32} {ls : Bool}
    {acc acc' : List Frame × ℕ} {m : Modification}
    (h : modificationStep limits actions ls acc m = .ok acc') :
    ∃ fs, m.frames ls = .ok fs ∧ acc'.1 = acc.1 ++ fs := by
  unfold modificationStep at h
  obtain ⟨-, h⟩ := (Result.ite_ok h).resolve_left fun ⟨_, h⟩ => nomatch h
  obtain ⟨size, -, h⟩ := Result.bind_ok_iff.mp h
  obtain ⟨total, -, h⟩ := Result.bind_ok_iff.mp h
  obtain ⟨-, h⟩ := (Result.ite_ok h).resolve_left fun ⟨_, h⟩ => nomatch h
  obtain ⟨fs, hfs, h⟩ := Result.bind_ok_iff.mp h
  exact ⟨fs, hfs, budgetFrames_ok h⟩

/-- The frames of a decision are the frames of all its modifications, in order. -/
theorem modificationFrames_ok {limits : Limits} {actions : UInt32} {ls : Bool}
    {modifications : List Modification} {frames : List Frame}
    (h : modificationFrames limits actions ls modifications = .ok frames) :
    ∃ parts, List.Forall₂ (fun m fs => Modification.frames ls m = .ok fs) modifications parts ∧
      frames = parts.flatten := by
  obtain ⟨acc, hfold, h⟩ := Result.bind_ok_iff.mp h
  obtain rfl := Except.ok.inj h
  suffices hgen : ∀ (ms : List Modification) (start : List Frame × ℕ),
      ms.foldlM (modificationStep limits actions ls) start = .ok acc →
      ∃ parts, List.Forall₂ (fun m fs => Modification.frames ls m = .ok fs) ms parts ∧
        acc.1 = start.1 ++ parts.flatten from hgen _ _ hfold
  intro ms
  induction ms with
  | nil =>
    intro start hs
    obtain rfl := Except.ok.inj hs
    exact ⟨[], .nil, (List.append_nil _).symm⟩
  | cons m ms ih =>
    intro start hs
    rw [List.foldlM_cons] at hs
    obtain ⟨mid, hm, hs⟩ := Result.bind_ok_iff.mp hs
    obtain ⟨fs, hfs, hmid⟩ := modificationStep_ok hm
    obtain ⟨parts, hparts, hacc⟩ := ih mid hs
    refine ⟨fs :: parts, .cons hfs hparts, ?_⟩
    rw [hacc, hmid, List.flatten_cons, List.append_assoc]

/-- A decision is settled with all its frames. -/
structure Completes (s : Session) (d : Decision) (stage : Stage) (frames : List Frame)
    (t : Session) : Prop where
  pending : s.pending = some stage
  atEnd : d.modifications ≠ [] → stage = .endMessage
  frames : ∃ o mods final, s.options = some o ∧
    modificationFrames s.limits o.actions s.leadingSpace d.modifications = .ok mods ∧
    finalFrame d.verdict = .ok final ∧ final.payload.length < s.limits.frameBytes ∧
    frames = (if rejected d.verdict ∨ d.verdict = .discard then [] else mods) ++ [final]
  settled : t = settle stage d.verdict s

/-- **A decision is settled as a whole.** -/
theorem complete_ok {d : Decision} {s t : Session} {frames : List Frame}
    (h : complete d s = (.ok frames, t)) : ∃ stage, Completes s d stage frames t := by
  replace h := get_bind_ok_iff.mp h
  obtain ⟨stage, hpending, h⟩ := lift_bind_ok_iff.mp h
  obtain ⟨o, ho, h⟩ := lift_bind_ok_iff.mp h
  obtain ⟨hend, h⟩ := failIf_bind_ok_iff.mp h
  obtain ⟨-, h⟩ := failIf_bind_ok_iff.mp h
  obtain ⟨mods, hmods, h⟩ := lift_bind_ok_iff.mp h
  obtain ⟨final, hfinal, h⟩ := lift_bind_ok_iff.mp h
  obtain ⟨hfits, h⟩ := failIf_bind_ok_iff.mp h
  obtain ⟨rfl, rfl⟩ := modify_pure_ok_iff.mp h
  have hsome : s.options = some o := okOr_eq_ok.mp ho
  exact ⟨stage, okOr_eq_ok.mp hpending,
    fun hm => not_not.mp fun hne => hend ⟨hm, hne⟩,
    ⟨o, mods, final, hsome, hmods, hfinal, by omega, rfl⟩, rfl⟩

/-- Why a decision is refused. -/
inductive Declines (s : Session) (d : Decision) : Error → Prop
  | idle (hpending : s.pending = none) : Declines s d (.invalid "no pending callback")
  | unnegotiated {stage : Stage} (hpending : s.pending = some stage) (ho : s.options = none) :
      Declines s d (.panic "negotiated")
  | early : Declines s d (.invalid "modifications require EOM")
  | many : Declines s d (.limit "modifications")
  | modifications {o : Options} {e : Error} (ho : s.options = some o)
      (h : modificationFrames s.limits o.actions s.leadingSpace d.modifications = .error e) :
      Declines s d e
  | verdict {e : Error} (h : finalFrame d.verdict = .error e) : Declines s d e
  | long : Declines s d (.limit "SMTP reply")

/-- **Every refused decision is refused for a reason.** -/
theorem complete_declines {d : Decision} {s t : Session} {e : Error}
    (h : complete d s = (.error e, t)) : Declines s d e := by
  replace h := get_bind_error_iff.mp h
  rcases lift_bind_error_iff.mp h with ⟨hstage, -⟩ | ⟨stage, hstage, h⟩
  · cases hpending : s.pending with
    | none =>
      rw [okOr_eq_error hstage]
      exact .idle hpending
    | some stage =>
      rw [hpending] at hstage
      cases hstage
  rcases lift_bind_error_iff.mp h with ⟨hoptions, -⟩ | ⟨o, ho, h⟩
  · cases hnone : s.options with
    | none =>
      rw [okOr_eq_error hoptions]
      exact .unnegotiated (okOr_eq_ok.mp hstage) hnone
    | some o =>
      rw [hnone] at hoptions
      cases hoptions
  rcases failIf_bind_error_iff.mp h with ⟨-, rfl, -⟩ | ⟨-, h⟩
  · exact .early
  rcases failIf_bind_error_iff.mp h with ⟨-, rfl, -⟩ | ⟨-, h⟩
  · exact .many
  rcases lift_bind_error_iff.mp h with ⟨hloop, -⟩ | ⟨mods, -, h⟩
  · exact .modifications (okOr_eq_ok.mp ho) hloop
  rcases lift_bind_error_iff.mp h with ⟨hverdict, -⟩ | ⟨final, -, h⟩
  · exact .verdict hverdict
  rcases failIf_bind_error_iff.mp h with ⟨-, rfl, -⟩ | ⟨-, h⟩
  · exact .long
  · exact nomatch (modify_bind_error_iff.mp h)

/-- A decision passes exactly when its parts do. -/
theorem complete_of_completes {d : Decision} {s t : Session} {stage : Stage}
    {frames : List Frame} (hcount : d.modifications.length ≤ s.limits.modifications)
    (h : Completes s d stage frames t) : complete d s = (.ok frames, t) := by
  obtain ⟨hpending, hend, ⟨o, mods, final, ho, hmods, hfinal, hfits, rfl⟩, rfl⟩ := h
  have hstage : ¬ (d.modifications ≠ [] ∧ stage ≠ .endMessage) := fun ⟨hm, hne⟩ => hne (hend hm)
  have hmany : ¬ s.limits.modifications < d.modifications.length := not_lt.mpr hcount
  have hlong : ¬ s.limits.frameBytes < final.payload.length + 1 := by omega
  simp [complete, run_bind, hpending, ho, hstage, hmods, hfinal, hmany, hlong]

end Session

end MtaHooks
