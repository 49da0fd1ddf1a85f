import MtaHooks.Session.History

namespace MtaHooks

open FallibleState

/-!
# The current transaction

What a callback has to see of the current message, told by the history alone: the exchanges
after the last one that ended a transaction, and of these the MAIL, the recipients not
refused, the headers and the body chunks, in order.

* `transaction` — the reference transaction of a history;
* `message_eq_transaction` — in every run the message of the session is the reference.
-/

/-- The content of a message, without its byte counters. -/
structure Transaction where
  sender : Option EnvelopeAddress := none
  recipients : List EnvelopeAddress := []
  headers : List (Bytes × Bytes) := []
  body : Bytes := []
  deriving DecidableEq

/-- The content of a message. -/
def Message.transaction (m : Message) : Transaction :=
  ⟨m.sender, m.recipients, m.headers, m.body⟩

namespace Exchange

/-- The verdict refuses the command. -/
def refused (e : Exchange) : Bool :=
  match e.decision with
  | some (d, _) => Session.rejected d.verdict
  | none => false

/-- The exchange ends the transaction: ABORT, QUIT and QUIT_NC, the decision of EOM, an
    accepting, discarding or closing verdict, and a refusal of anything but a recipient. -/
def ends (e : Exchange) : Bool :=
  match e.command, e.decision with
  | .abort, _ | .quit, _ | .quitNewConnection, _ => true
  | .endMessage, some _ => true
  | .recipient _, some (d, _) => d.verdict = .shutdown || Session.finished d.verdict
  | _, some (d, _) => Session.rejected d.verdict || Session.finished d.verdict
  | _, none => false

/-- The sender of a MAIL. -/
def sender (e : Exchange) : Option EnvelopeAddress :=
  match e.command with
  | .mail (address :: parameters) => some ⟨address, parameters⟩
  | _ => none

/-- The recipient of a RCPT that is not refused. -/
def recipient (e : Exchange) : Option EnvelopeAddress :=
  match e.command with
  | .recipient (address :: parameters) => if e.refused then none else some ⟨address, parameters⟩
  | _ => none

/-- The field of a header command. -/
def header (e : Exchange) : Option (Bytes × Bytes) :=
  match e.command with
  | .header name value => some (name, value)
  | _ => none

/-- The chunk of a body command. -/
def chunk (e : Exchange) : Option Bytes :=
  match e.command with
  | .body chunk => some chunk
  | _ => none

end Exchange

/-- The exchanges since a transaction last ended, the newest first. -/
def current (log : List Exchange) : List Exchange := log.takeWhile fun e => !e.ends

/-- The reference transaction of a history. -/
def transaction (log : List Exchange) : Transaction where
  sender := (current log).findSome? Exchange.sender
  recipients := ((current log).filterMap Exchange.recipient).reverse
  headers := ((current log).filterMap Exchange.header).reverse
  body := ((current log).filterMap Exchange.chunk).reverse.flatten

/-! ### One more exchange -/

/-- An exchange that ends the transaction leaves an empty one. -/
theorem transaction_ended {e : Exchange} {log : List Exchange} (h : e.ends = true) :
    transaction (e :: log) = {} := by
  have hcurrent : current (e :: log) = [] := by simp [current, h]
  simp [transaction, hcurrent]

/-- An exchange in the transaction adds to it what it has accepted. -/
theorem transaction_cons {e : Exchange} {log : List Exchange} (h : e.ends = false) :
    transaction (e :: log) =
      { sender := e.sender.or (transaction log).sender
        recipients := (transaction log).recipients ++ e.recipient.toList
        headers := (transaction log).headers ++ e.header.toList
        body := (transaction log).body ++ e.chunk.toList.flatten } := by
  have hcurrent : current (e :: log) = e :: current log := by simp [current, h]
  unfold transaction
  rw [hcurrent]
  congr 1
  · rw [List.findSome?_cons]
    cases e.sender <;> rfl
  · cases hr : e.recipient <;> simp [hr]
  · cases hr : e.header <;> simp [hr]
  · cases hr : e.chunk <;> simp [hr]

/-- An exchange that carries no part of a message. -/
theorem transaction_neutral {e : Exchange} {log : List Exchange} (h : e.ends = false)
    (hsender : e.sender = none) (hrecipient : e.recipient = none) (hheader : e.header = none)
    (hchunk : e.chunk = none) : transaction (e :: log) = transaction log := by
  rw [transaction_cons h, hsender, hrecipient, hheader, hchunk]
  simp

namespace Session

/-- A message without transaction. -/
theorem transaction_of_empty {m : Message} (h : Message.Empty m) : m.transaction = {} := by
  obtain ⟨hsender, hrecipients, hheaders, hbody⟩ := h
  simp [Message.transaction, hsender, hrecipients, hheaders, hbody]

/-- Sessions with the same view have the same transaction. -/
theorem SameView.transaction {s t : Session} (h : SameView s t) :
    t.message.transaction = s.message.transaction := by
  simp [Message.transaction, h.sender, h.recipients, h.headers, h.body]

/-- To await a decision leaves the message alone. -/
theorem awaiting_message (u : Session) (c : Command) : (u.awaiting c).message = u.message := by
  unfold awaiting
  split <;> rfl

/-- The arm of a command extends the transaction by that command. -/
theorem Performs.transaction {s u : Session} {c : Command} (h : Performs s c u) (hs : Valid s)
    {log : List Exchange} (hlog : s.message.transaction = transaction log)
    (options : Option Options) (step : Step) :
    u.message.transaction = MtaHooks.transaction ({ command := c, options, step } :: log) := by
  cases h with
  | mail hstate hbudget =>
    have hempty := transaction_of_empty (hs.message_empty (by rw [hstate]; rfl))
    rw [transaction_cons rfl, ← hlog, hempty]
    rfl
  | recipient hstate hbudget hcount =>
    rw [transaction_cons rfl, ← hlog]
    simp [Message.transaction, Exchange.sender, Exchange.recipient, Exchange.refused,
      Exchange.header,
      Exchange.chunk]
  | header hstate hcount hbudget =>
    rw [transaction_cons rfl, ← hlog]
    simp [Message.transaction, Exchange.sender, Exchange.recipient, Exchange.header,
      Exchange.chunk]
  | body hstate hbudget =>
    rw [transaction_cons rfl, ← hlog]
    simp [Message.transaction, Exchange.sender, Exchange.recipient, Exchange.header,
      Exchange.chunk]
  | abort => exact (transaction_ended rfl).symm
  | quit => exact (transaction_ended rfl).symm
  | quitNewConnection => exact (transaction_ended rfl).symm
  | _ => exact hlog.trans (transaction_neutral rfl rfl rfl rfl rfl).symm

/-! ### Decisions -/

/-- A closing verdict drops the message. -/
theorem settle_shutdown (stage : Stage) (s : Session) :
    (settle stage .shutdown s).message = {} := by
  simp [settle]

/-- A refused recipient is the last one, and leaves the list. -/
theorem settle_refused_recipient {v : Verdict} (hv : rejected v = true) (hshut : v ≠ .shutdown)
    (s : Session) :
    (settle .recipient v s).message =
      { s.message with recipients := s.message.recipients.dropLast } := by
  simp [settle, hv, hshut]

/-- A refusal at CONNECT or HELO keeps the message, which is empty then. -/
theorem settle_refused_connection {stage : Stage} {v : Verdict} (hv : rejected v = true)
    (hshut : v ≠ .shutdown) (hstage : stage = .connect ∨ stage = .helo) (s : Session) :
    (settle stage v s).message = s.message := by
  rcases hstage with rfl | rfl <;> simp [settle, hv, hshut]

/-- Every other verdict that is not to continue, and every decision of EOM, drops the
    message. -/
theorem settle_dropped {stage : Stage} {v : Verdict}
    (h : stage = .endMessage ∨ stage = .mail ∧ rejected v = true ∨ finished v = true)
    (s : Session) : (settle stage v s).message = {} := by
  unfold settle
  cases stage <;> cases v <;> simp_all [rejected, finished]

/-- To continue keeps the message. -/
theorem settle_continue {stage : Stage} (h : stage ≠ .endMessage) (s : Session) :
    (settle stage .continue s).message = s.message := by
  simp [settle, rejected, finished, h]

/-- The verdicts: to continue, to finish, to close, or to refuse otherwise. -/
theorem verdict_cases (v : Verdict) :
    v = .continue ∨ finished v = true ∨ v = .shutdown ∨ rejected v = true ∧ v ≠ .shutdown := by
  cases v <;> simp [finished, rejected]

/-- A pending callback has not ended its transaction. -/
theorem ends_pending {c : Command} {stage : Stage} (hstage : c.stage = some stage)
    (options : Option Options) (step : Step) :
    Exchange.ends { command := c, options, step } = false := by
  cases c <;> cases hstage <;> rfl

/-- When a decided callback ends the transaction. -/
theorem ends_decided {c : Command} {stage : Stage} (hstage : c.stage = some stage)
    (options : Option Options) (step : Step) (d : Decision) (frames : List Frame) :
    Exchange.ends { command := c, options, step, decision := some (d, frames) } = true ↔
      stage = .endMessage ∨ d.verdict = .shutdown ∨ finished d.verdict = true ∨
        rejected d.verdict = true ∧ stage ≠ .recipient := by
  obtain ⟨v, mods⟩ := d
  cases c <;> cases hstage <;> cases v <;> simp [Exchange.ends, rejected, finished]

/-- What ends the transaction empties the message. -/
theorem settle_ended {s : Session} {stage : Stage} {v : Verdict} (hs : Valid s)
    (hpending : s.pending = some stage)
    (h : stage = .endMessage ∨ v = .shutdown ∨ finished v = true ∨
      rejected v = true ∧ stage ≠ .recipient) :
    (settle stage v s).message.transaction = {} := by
  by_cases hshut : v = .shutdown
  · rw [hshut, settle_shutdown]
    rfl
  by_cases hdropped : stage = .endMessage ∨ stage = .mail ∧ rejected v = true ∨ finished v = true
  · rw [settle_dropped hdropped]
    rfl
  -- What is left is a refusal at CONNECT or HELO, where no transaction has begun.
  have hrejected : rejected v = true ∧ (stage = .connect ∨ stage = .helo) := by
    cases stage <;> simp_all
  rw [settle_refused_connection hrejected.1 hshut hrejected.2]
  refine transaction_of_empty (hs.message_empty ?_)
  rw [hs.awaits stage hpending]
  rcases hrejected.2 with rfl | rfl <;> rfl

/-- **A settled decision closes its exchange.** -/
theorem settle_transaction {s : Session} {stage : Stage} {c : Command} {options : Option Options}
    {step : Step} {log : List Exchange} (d : Decision) (frames : List Frame) (hs : Valid s)
    (hpending : s.pending = some stage) (hstage : c.stage = some stage)
    (hc : c ≠ .recipient [])
    (hlog : s.message.transaction = transaction ({ command := c, options, step } :: log)) :
    (settle stage d.verdict s).message.transaction =
      transaction ({ command := c, options, step, decision := some (d, frames) } :: log) := by
  by_cases hends : Exchange.ends { command := c, options, step, decision := some (d, frames) }
  · rw [transaction_ended hends,
      settle_ended hs hpending ((ends_decided hstage options step d frames).mp hends)]
  have hgoes : ¬ (stage = .endMessage ∨ d.verdict = .shutdown ∨ finished d.verdict = true ∨
      rejected d.verdict = true ∧ stage ≠ .recipient) :=
    fun h => hends ((ends_decided hstage options step d frames).mpr h)
  simp only [not_or, not_and, not_not] at hgoes
  obtain ⟨hend, hshut, hfinished, hrecipient⟩ := hgoes
  rw [transaction_cons (ends_pending hstage options step)] at hlog
  rw [transaction_cons (by simpa using hends)]
  rcases verdict_cases d.verdict with hv | hv | hv | ⟨hv, -⟩
  · rw [hv, settle_continue hend, hlog]
    simp [Exchange.sender, Exchange.recipient, Exchange.header, Exchange.chunk,
      Exchange.refused, hv,
      rejected]
  · exact absurd hv hfinished
  · exact absurd hv hshut
  · -- The refused recipient is the one RCPT had appended.
    obtain rfl := hrecipient hv
    obtain ⟨fields, rfl⟩ : ∃ fields, c = .recipient fields := by
      cases c <;> cases hstage
      exact ⟨_, rfl⟩
    have hfields : fields ≠ [] := fun h => hc (by rw [h])
    obtain ⟨address, parameters, rfl⟩ := List.exists_cons_of_ne_nil hfields
    rw [settle_refused_recipient hv hshut]
    simp only [Message.transaction, Transaction.mk.injEq] at hlog ⊢
    obtain ⟨hsender, hrecipients, hheaders, hbody⟩ := hlog
    refine ⟨hsender, ?_, hheaders, hbody⟩
    rw [hrecipients]
    simp [Exchange.recipient, Exchange.refused, hv]

/-! ### Whole runs -/

/-- An accepted callback is that of its command, and an accepted RCPT has an address. -/
theorem Accepts.formed {s t : Session} {c : Command} {step : Step} (h : Accepts s c step t) :
    (∀ stage, step.event = some stage → c.stage = some stage) ∧ c ≠ .recipient [] := by
  refine ⟨fun stage hevent => (h.event hevent).2.1, ?_⟩
  rintro rfl
  cases h with
  | perform _ hperforms => cases hperforms

/-- The recipient being decided comes after those of the exchanges before. -/
theorem transaction_deciding {e : Exchange} {log : List Exchange}
    (hformed : (∀ stage, e.step.event = some stage → e.command.stage = some stage) ∧
      e.command ≠ .recipient [])
    (hwaiting : e.waiting = some .recipient) :
    ∃ address parameters, e.command = .recipient (address :: parameters) ∧
      (transaction (e :: log)).recipients =
        (transaction log).recipients ++ [⟨address, parameters⟩] := by
  obtain ⟨c, options, step, decision⟩ := e
  cases decision with
  | some _ => exact nomatch hwaiting
  | none =>
    have hstage : c.stage = some .recipient := hformed.1 _ hwaiting
    obtain ⟨fields, rfl⟩ : ∃ fields, c = .recipient fields := by
      cases c <;> cases hstage
      exact ⟨_, rfl⟩
    have hfields : fields ≠ [] := fun h => hformed.2 (by rw [h])
    obtain ⟨address, parameters, rfl⟩ := List.exists_cons_of_ne_nil hfields
    refine ⟨address, parameters, rfl, ?_⟩
    rw [transaction_cons (ends_pending hstage options step)]
    rfl

/-- **Callbacks see exactly the current transaction.**  In every run, refused calls included,
    the message of the session is the reference transaction of the history; at a RCPT callback
    its last recipient is the one being decided. -/
theorem message_eq_transaction {s : Session} (hs : s.Initial) (calls : List Call) :
    (Machine.after call s calls).message.transaction = transaction (history s calls) ∧
    ((Machine.after call s calls).pending = some .recipient →
      ∃ e log address parameters, history s calls = e :: log ∧
        e.command = .recipient (address :: parameters) ∧
        (Machine.after call s calls).message.recipients =
          (transaction log).recipients ++ [⟨address, parameters⟩]) := by
  have hP := logged_invariant
    (P := fun x => Tracks x ∧ x.1.message.transaction = transaction x.2 ∧
      ∀ e ∈ x.2, (∀ stage, e.step.event = some stage → e.command.stage = some stage) ∧
        e.command ≠ .recipient []) hs ?_ ?_ calls
  · obtain ⟨⟨hhead, -⟩, hmessage, hformed⟩ := hP
    rw [loggedAfter_session] at hhead hmessage
    refine ⟨hmessage, fun hpending => ?_⟩
    have hrecipients := congrArg Transaction.recipients hmessage
    unfold history
    rw [hpending] at hhead
    cases hlog : (loggedAfter s calls).2 with
    | nil => rw [hlog] at hhead; exact nomatch hhead
    | cons e log =>
      rw [hlog] at hhead hformed hrecipients
      obtain ⟨address, parameters, hcommand, hlast⟩ :=
        transaction_deciding (hformed e List.mem_cons_self) hhead.symm
      exact ⟨e, log, address, parameters, rfl, hcommand, hrecipients.trans hlast⟩
  · obtain ⟨_, _, _, _, rfl⟩ := hs
    exact ⟨⟨rfl, fun _ h => nomatch h⟩, rfl, fun _ h => nomatch h⟩
  · rintro s log x hv ⟨htracks, hlog, hformed⟩ hl
    refine ⟨hl.tracks htracks, ?_⟩
    cases hl with
    | @accepted c step t hpending hopen haccepts =>
      refine ⟨?_, fun e he => ?_⟩
      · cases haccepts with
        | negotiate _ _ _ => exact hlog.trans (transaction_neutral rfl rfl rfl rfl rfl).symm
        | macros _ _ => exact hlog.trans (transaction_neutral rfl rfl rfl rfl rfl).symm
        | @perform _ u _ hperforms =>
          show (u.awaiting c).message.transaction = _
          rw [awaiting_message]
          exact hperforms.transaction hv hlog _ _
      · rcases List.mem_cons.mp he with rfl | he
        · exact haccepts.formed
        · exact hformed e he
    | refused hsame => exact ⟨hsame.transaction.trans hlog, hformed⟩
    | dropped hpending hready hsame =>
      -- A refused MAIL drops a message that is empty already.
      have hempty := transaction_of_empty (hv.message_empty (by rw [hready]; rfl))
      refine ⟨?_, hformed⟩
      rw [← hlog, hempty]
      exact hsame.transaction
    | @decided d stage frames t hc =>
      cases log with
      | nil => exact nomatch htracks.1.symm.trans hc.pending
      | cons e log =>
        obtain ⟨hevents, hrcpt⟩ := hformed e List.mem_cons_self
        have hwaiting : e.waiting = some stage := htracks.1.symm.trans hc.pending
        obtain ⟨c, options, step, decision⟩ := e
        cases decision with
        | some _ => exact nomatch hwaiting
        | none =>
          refine ⟨?_, fun e' he' => ?_⟩
          · show t.message.transaction = _
            rw [hc.settled]
            exact settle_transaction d frames hv hc.pending (hevents stage hwaiting) hrcpt hlog
          · rcases List.mem_cons.mp he' with rfl | he'
            · exact ⟨hevents, hrcpt⟩
            · exact hformed e' (List.mem_cons_of_mem _ he')

/-- A rejected recipient is gone when the next one is decided. -/
theorem message_eq_transaction_at_recipient :
    (Machine.after call (Sample.session [.recipient])
      [.receive Sample.offer, .receive Sample.connect, .receive Sample.mail,
        .receive (Sample.rcpt "<b>"), .complete { verdict := .reject },
        .receive (Sample.rcpt "<c>")]).message.transaction
      = { sender := some ⟨"<a>", []⟩, recipients := [⟨"<c>", []⟩] } :=
  (message_eq_transaction (Sample.session_initial [.recipient]) _).1.trans (by decide +kernel)

end Session

end MtaHooks
