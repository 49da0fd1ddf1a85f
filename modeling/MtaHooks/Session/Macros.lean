import MtaHooks.Session.Calls

namespace MtaHooks

open FallibleState

/-!
# Macro batches over a run

Which macro definitions a session sees, told by the history alone.

* `Session.events` — the history: the frames a session took note of, each with its answer, and
  the decisions of its callbacks, the newest first;
* `Session.call_batches` — one call does to the two maps of the session what its event says;
* `Reading.activeBatch` / `Reading.lookup` — the reference: the batch of a class that is in
  force, and the value of a name;
* `Session.macroValue_eq_lookup` — in every run the session finds what the reference finds.
-/

/-- What the macro batches of a session depend on. -/
inductive MacroEvent
  | frame (command : Command) (answer : Result Step)
  | decision (stage : Stage) (verdict : Verdict)

/-- The decision ends the transaction: a closing, accepting or discarding verdict, the decision
    of EOM, and a refused MAIL.  A refused recipient leaves the others, and before MAIL there is
    no transaction to refuse. -/
def Session.endsTransaction (stage : Stage) (verdict : Verdict) : Bool :=
  verdict = .shutdown || Session.finished verdict || stage = .endMessage ||
    (stage = .mail && Session.rejected verdict)

namespace MacroEvent

/-- The frame was not refused. -/
def accepted : MacroEvent → Bool
  | .frame _ (.error _) => false
  | _ => true

/-- A MAIL that came when no transaction may start. -/
def misplaced : MacroEvent → Bool
  | .frame (.mail _) (.error (.sequence ..)) => true
  | _ => false

/-- An accepted call is not a MAIL out of its place. -/
theorem misplaced_of_accepted {e : MacroEvent} (h : e.accepted = true) : e.misplaced = false := by
  cases e with
  | decision stage verdict => rfl
  | frame command answer =>
    cases answer with
    | error e => cases h
    | ok step => cases command <;> rfl

/-- A command of the class. -/
def isCommand (c : UInt8) : MacroEvent → Bool
  | .frame command _ => command.opcode = c
  | .decision .. => false

/-- The batch the frame defines for the class. -/
def definition (c : UInt8) : MacroEvent → Option Macros
  | .frame (.macros stage values) _ => if stage = c then some (.collect values) else none
  | _ => none

/-- The batches of the class do not outlive a transaction. -/
def transactional (c : UInt8) : Bool := c ≠ byte 'C' && c ≠ byte 'H'

/-- The event drops the batches of the class, a MAIL where it `starts` a transaction. -/
def resets (starts : MacroEvent → Bool) (c : UInt8) : MacroEvent → Bool
  -- Only a new connection drops the batches of CONNECT and HELO.
  | .frame .quitNewConnection _ => true
  | .frame .abort _ | .frame .quit _ => transactional c
  | .frame (.mail fields) answer => starts (.frame (.mail fields) answer) && transactional c
  | .frame .. => false
  | .decision stage verdict => Session.endsTransaction stage verdict && transactional c

end MacroEvent

/-! ### The reference -/

/-- How refused frames count: which commands put the batch of their class in force, which use
    up the definitions before them, and which MAIL starts a transaction. -/
structure Reading where
  activates : MacroEvent → Bool
  consumes : MacroEvent → Bool
  starts : MacroEvent → Bool

namespace Reading

/-- Every frame received counts, whatever it was answered. -/
def received : Reading := ⟨fun _ => true, fun _ => true, MacroEvent.accepted⟩

/-- Only accepted frames count. -/
def acceptedOnly : Reading := ⟨MacroEvent.accepted, MacroEvent.accepted, MacroEvent.accepted⟩

/-- Every frame counts, but a misplaced MAIL is only the end of the definitions before it. -/
def exact : Reading := ⟨fun e => !e.misplaced, fun _ => true, fun e => !e.misplaced⟩

variable (r : Reading) (c : UInt8)

/-- A command of the class that puts a batch in force. -/
def commands (e : MacroEvent) : Bool := e.isCommand c && r.activates e

/-- No definition of the class before the event is waiting after it. -/
def closes (e : MacroEvent) : Bool := (e.isCommand c && r.consumes e) || e.resets r.starts c

/-- The last definition of the class since the previous command of the class and the last
    reset. -/
def lastDefinition (log : List MacroEvent) : Option Macros :=
  (log.takeWhile fun e => !r.closes c e).findSome? (MacroEvent.definition c)

/-- The batch in force: the last definition before the most recent command of the class, if
    there was such a command since the last reset. -/
def activeBatch (log : List MacroEvent) : Option Macros :=
  match log.dropWhile fun e => !r.commands c e && !e.resets r.starts c with
  | [] => none
  -- The event found is a command of the class, or a reset after the last one.
  | e :: earlier => if r.commands c e then r.lastDefinition c earlier else none

/-- The value of a name, plain or in braces, in the first class that has it in force. -/
def lookup (log : List MacroEvent) (name : Str) : Option Bytes :=
  (ascii "EBNLTURMHC").findSome? fun c =>
    (r.activeBatch c log).bind fun m => (m.lookup name).or (m.lookup ([0x7b] ++ name ++ [0x7d]))

/-- The last definition of a log with one more event in front, which is the newest. -/
theorem lastDefinition_cons (e : MacroEvent) (log : List MacroEvent) :
    r.lastDefinition c (e :: log) =
      if r.closes c e then none else (e.definition c).or (r.lastDefinition c log) := by
  unfold lastDefinition
  rw [List.takeWhile_cons]
  cases r.closes c e with
  | true => rfl
  | false =>
    -- The event is in the window: its own definition, or an earlier one.
    simp only [Bool.not_false, if_true, List.findSome?_cons]
    cases e.definition c <;> rfl

/-- The active batch after one more event: a command of its stage takes the last definition, a reset
    drops it. -/
theorem activeBatch_cons (e : MacroEvent) (log : List MacroEvent) :
    r.activeBatch c (e :: log) =
      if r.commands c e then r.lastDefinition c log
      else if e.resets r.starts c then none else r.activeBatch c log := by
  unfold activeBatch
  rw [List.dropWhile_cons]
  cases hcommands : r.commands c e with
  | true => simp [hcommands]
  | false => cases hresets : e.resets r.starts c <;> simp [hcommands]

variable {r c}

/-- Two readings find the same definitions where they close the same ones. -/
theorem lastDefinition_congr {r' : Reading} {log : List MacroEvent}
    (h : ∀ e ∈ log, r.closes c e = r'.closes c e) :
    r.lastDefinition c log = r'.lastDefinition c log := by
  induction log with
  | nil => rfl
  | cons e log ih =>
    obtain ⟨he, hlog⟩ := List.forall_mem_cons.mp h
    rw [lastDefinition_cons, lastDefinition_cons, he, ih hlog]

/-- Two readings that agree on the events of a history find the same batches. -/
theorem activeBatch_congr {r' : Reading} {log : List MacroEvent}
    (h : ∀ e ∈ log, r.activates e = r'.activates e ∧ r.consumes e = r'.consumes e ∧
      r.starts e = r'.starts e) :
    r.activeBatch c log = r'.activeBatch c log := by
  have hresets : ∀ e ∈ log, e.resets r.starts c = e.resets r'.starts c := by
    intro e he
    unfold MacroEvent.resets
    split <;> first | rfl | rw [(h _ he).2.2]
  have hcloses : ∀ e ∈ log, r.closes c e = r'.closes c e := by
    intro e he
    rw [closes, closes, hresets e he, (h e he).2.1]
  induction log with
  | nil => rfl
  | cons e log ih =>
    obtain ⟨he, hlog⟩ := List.forall_mem_cons.mp h
    obtain ⟨hreset, hresets⟩ := List.forall_mem_cons.mp hresets
    obtain ⟨-, hcloses⟩ := List.forall_mem_cons.mp hcloses
    rw [activeBatch_cons, activeBatch_cons, hreset, ih hlog hresets hcloses,
      lastDefinition_congr hcloses, commands, commands, he.1]

/-- Two readings that agree on the events of a history find the same values. -/
theorem lookup_congr {r' : Reading} {log : List MacroEvent} {name : Str}
    (h : ∀ e ∈ log, r.activates e = r'.activates e ∧ r.consumes e = r'.consumes e ∧
      r.starts e = r'.starts e) :
    r.lookup log name = r'.lookup log name := by
  unfold lookup
  simp only [activeBatch_congr h]

end Reading

/-! ### The two maps as a fold -/

/-- What an event does to the active and the waiting batches. -/
def MacroEvent.apply (b : Batches × Batches) : MacroEvent → Batches × Batches
  | .frame (.macros stage values) _ => (b.1, b.2.set stage (some (.collect values)))
  | .frame (.mail fields) answer =>
    -- The state is checked after the waiting batch is taken and before it is put in force.
    if misplaced (.frame (.mail fields) answer) then (b.1, b.2.set (byte 'M') none)
    else (b.1.retain.set (byte 'M') (b.2 (byte 'M')), b.2.retain)
  | .frame .abort _ | .frame .quit _ => (b.1.retain, b.2.retain)
  | .frame .quitNewConnection _ => (.empty, .empty)
  | .frame (.negotiate _) _ => b
  | .frame command _ =>
    -- The waiting batch replaces the one in force even where no definition came.
    (b.1.set command.opcode (b.2 command.opcode), b.2.set command.opcode none)
  | .decision stage verdict =>
    if Session.endsTransaction stage verdict then (b.1.retain, b.2.retain) else b

namespace MacroEvent

variable {b : Batches × Batches}

/-- MAIL where none is taken: only the definition of its own stage goes. -/
theorem apply_misplaced {fields : List Bytes} {answer : Result Step}
    (h : misplaced (.frame (.mail fields) answer) = true) :
    apply b (.frame (.mail fields) answer) = (b.1, b.2.set (byte 'M') none) :=
  if_pos h

/-- MAIL in its place: the transactional batches go, its own becomes active. -/
theorem apply_mail {fields : List Bytes} {answer : Result Step}
    (h : misplaced (.frame (.mail fields) answer) = false) :
    apply b (.frame (.mail fields) answer) =
      (b.1.retain.set (byte 'M') (b.2 (byte 'M')), b.2.retain) :=
  if_neg (ne_true_of_eq_false h)

/-- A decision that ends the transaction drops the transactional batches. -/
theorem apply_ended {stage : Stage} {verdict : Verdict}
    (h : Session.endsTransaction stage verdict = true) :
    apply b (.decision stage verdict) = (b.1.retain, b.2.retain) :=
  if_pos h

/-- A decision after which the transaction goes on leaves the batches. -/
theorem apply_continued {stage : Stage} {verdict : Verdict}
    (h : Session.endsTransaction stage verdict = false) : apply b (.decision stage verdict) = b :=
  if_neg (ne_true_of_eq_false h)

end MacroEvent

/-- The maps hold what the reference finds. -/
def Reading.Holds (log : List MacroEvent) (b : Batches × Batches) : Prop :=
  ∀ c ∈ Command.macroStages, b.1 c = exact.activeBatch c log ∧ b.2 c = exact.lastDefinition c log

namespace Reading

variable {log : List MacroEvent} {b : Batches × Batches} {c : UInt8}

/-- The retained batches: those of the connection. -/
theorem retain_eq (m : Batches) (c : UInt8) :
    m.retain c = if MacroEvent.transactional c then none else m c := by
  unfold Batches.retain MacroEvent.transactional
  by_cases hC : c = byte 'C'
  · simp [hC]
  · by_cases hH : c = byte 'H' <;> simp [hC, hH]

/-- An event that drops what a transaction holds, and is no command of the class. -/
theorem Holds.drop {e : MacroEvent} (hb : Holds log b) (hc : c ∈ Command.macroStages)
    (hcommand : e.isCommand c = false) (hdefinition : e.definition c = none)
    (hresets : e.resets exact.starts c = MacroEvent.transactional c) :
    b.1.retain c = exact.activeBatch c (e :: log) ∧
      b.2.retain c = exact.lastDefinition c (e :: log) := by
  obtain ⟨hactive, hwaiting⟩ := hb c hc
  rw [activeBatch_cons, lastDefinition_cons, retain_eq, retain_eq, hactive, hwaiting]
  simp only [commands, closes, hcommand, hresets, hdefinition, Bool.false_and, Bool.false_or]
  exact ⟨rfl, rfl⟩

/-- An event without effect on the class. -/
theorem Holds.same {e : MacroEvent} (hb : Holds log b) (hc : c ∈ Command.macroStages)
    (hcommand : e.isCommand c = false) (hdefinition : e.definition c = none)
    (hresets : e.resets exact.starts c = false) :
    b.1 c = exact.activeBatch c (e :: log) ∧ b.2 c = exact.lastDefinition c (e :: log) := by
  rw [activeBatch_cons, lastDefinition_cons]
  simp only [commands, closes, hcommand, hresets, hdefinition, Bool.false_and, Bool.false_or]
  exact hb c hc

/-- A command puts the waiting batch of its class in force. -/
theorem Holds.activate {command : Command} {answer : Result Step} (hb : Holds log b)
    (hc : c ∈ Command.macroStages) (hplaced : MacroEvent.misplaced (.frame command answer) = false)
    (hdefinition : MacroEvent.definition c (.frame command answer) = none)
    (hresets : MacroEvent.resets exact.starts c (.frame command answer) = false) :
    b.1.set command.opcode (b.2 command.opcode) c =
        exact.activeBatch c (.frame command answer :: log) ∧
      b.2.set command.opcode none c = exact.lastDefinition c (.frame command answer :: log) := by
  -- The command is in force for its own class only; no other class sees it.
  by_cases hop : c = command.opcode
  · subst hop
    rw [activeBatch_cons, lastDefinition_cons, Batches.set_same, Batches.set_same]
    have hcommand : MacroEvent.isCommand command.opcode (.frame command answer) = true :=
      decide_eq_true rfl
    simp only [commands, closes, hcommand, exact, hplaced]
    exact ⟨(hb _ hc).2, rfl⟩
  · have hcommand : MacroEvent.isCommand c (.frame command answer) = false :=
      decide_eq_false (Ne.symm hop)
    rw [Batches.set_of_ne _ _ hop, Batches.set_of_ne _ _ hop]
    exact hb.same hc hcommand hdefinition hresets

/-- The frame is no command of a class: its opcode has no definitions. -/
theorem not_command {command : Command} (answer : Result Step) (hc : c ∈ Command.macroStages)
    (hop : command.opcode ∉ Command.macroStages) :
    MacroEvent.isCommand c (.frame command answer) = false :=
  decide_eq_false fun h => hop (h ▸ hc)

/-- A MAIL activates the batch waiting for it and drops the rest of the transaction. -/
theorem Holds.mail {fields : List Bytes} {answer : Result Step} (hb : Holds log b)
    (hplaced : MacroEvent.misplaced (.frame (.mail fields) answer) = false) :
    Holds (.frame (.mail fields) answer :: log)
      (b.1.retain.set (byte 'M') (b.2 (byte 'M')), b.2.retain) := by
  intro c hc
  have hresets : MacroEvent.resets exact.starts c (.frame (.mail fields) answer) =
      MacroEvent.transactional c := by
    simp [MacroEvent.resets, exact, hplaced]
  by_cases hM : c = byte 'M'
  · subst hM
    rw [activeBatch_cons, lastDefinition_cons]
    have hcommand : MacroEvent.isCommand (byte 'M') (.frame (.mail fields) answer) = true := rfl
    simp only [commands, closes, hcommand, exact, hplaced]
    exact ⟨(Batches.set_same _ _ _).trans (hb _ hc).2, rfl⟩
  · have hcommand : MacroEvent.isCommand c (.frame (.mail fields) answer) = false :=
      decide_eq_false (Ne.symm hM)
    dsimp only
    rw [Batches.set_of_ne _ _ hM]
    exact hb.drop hc hcommand rfl hresets

/-- A misplaced MAIL only takes the definitions waiting for a MAIL. -/
theorem Holds.misplaced {fields : List Bytes} {answer : Result Step} (hb : Holds log b)
    (hmisplaced : MacroEvent.misplaced (.frame (.mail fields) answer) = true) :
    Holds (.frame (.mail fields) answer :: log) (b.1, b.2.set (byte 'M') none) := by
  intro c hc
  have hresets : MacroEvent.resets exact.starts c (.frame (.mail fields) answer) = false := by
    simp [MacroEvent.resets, exact, hmisplaced]
  by_cases hM : c = byte 'M'
  · subst hM
    rw [activeBatch_cons, lastDefinition_cons, hresets]
    have hcommand : MacroEvent.isCommand (byte 'M') (.frame (.mail fields) answer) = true := rfl
    simp only [commands, closes, hcommand, exact, hmisplaced]
    exact ⟨(hb _ hc).1, rfl⟩
  · have hcommand : MacroEvent.isCommand c (.frame (.mail fields) answer) = false :=
      decide_eq_false (Ne.symm hM)
    dsimp only
    rw [Batches.set_of_ne _ _ hM]
    exact hb.same hc hcommand rfl hresets

/-- A definition waits for the next command of its class. -/
theorem Holds.define {stage : UInt8} {values : List (Bytes × Bytes)} {answer : Result Step}
    (hb : Holds log b) :
    Holds (.frame (.macros stage values) answer :: log)
      (b.1, b.2.set stage (some (.collect values))) := by
  intro c hc
  have hD : byte 'D' ∉ Command.macroStages := by decide
  have hcommand : MacroEvent.isCommand c (.frame (.macros stage values) answer) = false :=
    not_command answer hc hD
  obtain ⟨hactive, hwaiting⟩ := hb c hc
  rw [activeBatch_cons, lastDefinition_cons]
  simp only [commands, closes, hcommand, MacroEvent.resets, MacroEvent.definition, Bool.false_and,
    Bool.false_or]
  refine ⟨hactive, ?_⟩
  by_cases hstage : c = stage
  · subst hstage
    simp
  · rw [Batches.set_of_ne _ _ hstage, if_neg (Ne.symm hstage), hwaiting]
    rfl

/-- **One event.**  The maps keep holding what the reference finds. -/
theorem Holds.apply (hb : Holds log b) (e : MacroEvent) : Holds (e :: log) (e.apply b) := by
  cases e with
  | decision stage verdict =>
    cases hends : Session.endsTransaction stage verdict with
    | true =>
      rw [MacroEvent.apply_ended hends]
      intro c hc
      refine hb.drop hc rfl rfl ?_
      simp only [MacroEvent.resets, hends, Bool.true_and]
    | false =>
      rw [MacroEvent.apply_continued hends]
      intro c hc
      refine hb.same hc rfl rfl ?_
      simp only [MacroEvent.resets, hends, Bool.false_and]
  | frame command answer =>
    cases command with
    | macros stage values => exact hb.define
    | mail fields =>
      cases hmisplaced : MacroEvent.misplaced (.frame (.mail fields) answer) with
      | true =>
        rw [MacroEvent.apply_misplaced hmisplaced]
        exact hb.misplaced hmisplaced
      | false =>
        rw [MacroEvent.apply_mail hmisplaced]
        exact hb.mail hmisplaced
    | abort => exact fun c hc => hb.drop hc (not_command answer hc (by decide)) rfl rfl
    | quit => exact fun c hc => hb.drop hc (not_command answer hc (by decide)) rfl rfl
    -- Both maps are emptied, and the reference finds nothing beyond this event.
    | quitNewConnection =>
      intro c hc
      rw [activeBatch_cons, lastDefinition_cons]
      have hcommand : MacroEvent.isCommand c (.frame .quitNewConnection answer) = false :=
        not_command answer hc (by decide)
      simp only [commands, closes, hcommand, MacroEvent.resets]
      exact ⟨rfl, rfl⟩
    | negotiate offered =>
      have hO : byte 'O' ∉ Command.macroStages := by decide
      exact fun c hc => hb.same hc (not_command answer hc hO) rfl rfl
    -- The commands that only activate: CONNECT, HELO, RCPT, DATA, L, N, B, E and U.
    | _ => exact fun c hc => hb.activate hc rfl rfl rfl

end Reading

/-! ### The session -/

namespace Session

/-- The active and the waiting batches. -/
def batches (s : Session) : Batches × Batches := (s.macros, s.pendingMacros)

/-- The session takes note of frames: it is negotiated, not closed, and no callback is
    pending. -/
def Listens (s : Session) : Prop := s.pending = none ∧ s.state ≠ .initial ∧ s.state ≠ .closed

instance (s : Session) : Decidable (Listens s) := inferInstanceAs (Decidable (_ ∧ _ ∧ _))

/-- The event of a call: a frame that can be decoded, while the session listens, or a decision
    of its callback. -/
def heard (s : Session) : Call → Option MacroEvent
  | .receive f =>
    match Command.decode f with
    | .ok command => if Listens s then some (.frame command (receive f s).1) else none
    | .error _ => none
  | .complete d =>
    match s.pending, (complete d s).1 with
    | some stage, .ok _ => some (.decision stage d.verdict)
    | _, _ => none

/-- The history of a run, the newest event first. -/
def events (s : Session) : List Call → List MacroEvent
  | [] => []
  | i :: calls => events (s.call i).2 calls ++ (heard s i).toList

/-- The sessions hold the same batches. -/
def SameBatches (s t : Session) : Prop := t.batches = s.batches

instance : Std.Refl SameBatches := ⟨fun _ => rfl⟩

instance : Trans SameBatches SameBatches SameBatches := ⟨fun h h' => Eq.trans h' h⟩

/-- The check of the state leaves the batches. -/
theorem require_batches (cmd : UInt8) (states : List State) :
    Keeps SameBatches (require cmd states) :=
  .bind .get fun _ => .failIf _ _

/-- The count of the message leaves the batches. -/
theorem account_batches (n : ℕ) : Keeps SameBatches (account n) :=
  .bind .get fun _ => .bind (.lift _) fun _ => .bind (.modify fun _ => rfl) fun _ => .failIf _ _

/-- The count of the envelope leaves the batches. -/
theorem accountEnvelope_batches (fields : List Bytes) :
    Keeps SameBatches (accountEnvelope fields) := by
  induction fields with
  | nil => exact .bind .get fun _ => .failIf _ _
  | cons field fields ih =>
    exact .bind .get fun _ => .bind (.lift _) fun _ => .bind (.modify fun _ => rfl) fun _ => ih

/-- The arms that leave the batches alone. -/
theorem arm_batches (op : UInt8) {c : Command} (habort : c ≠ .abort) (hquit : c ≠ .quit)
    (hnew : c ≠ .quitNewConnection) : Keeps SameBatches (arm op c) := by
  have hset : ∀ (f : Session → Session) (out : Outcome), (∀ s, SameBatches s (f s)) →
      Keeps SameBatches (modify f >>= fun _ => pure out : SessionM Outcome) :=
    fun f out hf => .bind (.modify hf) fun _ => .pure out
  cases c with
  | connect info => exact .bind (require_batches _ _) fun _ => hset _ _ fun _ => rfl
  | helo helo => exact .bind (require_batches _ _) fun _ => hset _ _ fun _ => rfl
  | mail fields =>
    exact .bind (accountEnvelope_batches _) fun _ => .bind (.lift _) fun _ =>
      hset _ _ fun _ => rfl
  | recipient fields =>
    exact .bind (require_batches _ _) fun _ => .bind (accountEnvelope_batches _) fun _ =>
      .bind .get fun _ => .bind (.failIf _ _) fun _ => .bind (.lift _) fun _ =>
        hset _ _ fun _ => rfl
  | data => exact .bind (require_batches _ _) fun _ => hset _ _ fun _ => rfl
  | header name value =>
    exact .bind (require_batches _ _) fun _ => .bind .get fun _ => .bind (.failIf _ _) fun _ =>
      .bind (account_batches _) fun _ => hset _ _ fun _ => rfl
  | endHeaders =>
    exact .bind (require_batches _ _) fun _ => .bind (account_batches _) fun _ =>
      hset _ _ fun _ => rfl
  | body chunk =>
    exact .bind (require_batches _ _) fun _ => .bind (account_batches _) fun _ =>
      hset _ _ fun _ => rfl
  | endMessage => exact .bind (require_batches _ _) fun _ => .pure _
  | unknown text => exact .pure _
  | negotiate offered => exact .fail _
  | macros stage values => exact .fail _
  | abort => exact absurd rfl habort
  | quit => exact absurd rfl hquit
  | quitNewConnection => exact absurd rfl hnew

/-- The finish of a callback leaves the batches. -/
theorem finish_batches (out : Outcome) : Keeps SameBatches (finish out) := by
  refine .bind .get fun s => ?_
  split
  · exact .bind (.modify fun _ => rfl) fun _ => .pure _
  · split
    · exact .bind (.lift _) fun _ => .pure _
    · exact .pure _

/-! ### One call -/

/-- The arm of a command, once its batch is active, and the reply tail. -/
theorem dispatch_of_not_mail {c : Command} (h : ∀ fields, c ≠ .mail fields) (op : UInt8)
    (s : Session) : dispatch op c s = (arm op c >>= finish) (s.activateMacros op) := by
  cases c with
  | mail fields => exact absurd rfl (h fields)
  | _ => rfl

/-- MAIL in its place is its arm on the session of a new transaction. -/
theorem dispatch_mail {fields : List Bytes} {s : Session} (h : s.state = .ready) :
    dispatch (byte 'M') (.mail fields) s =
      (arm (byte 'M') (.mail fields) >>= finish) s.startMail := by
  -- In `ready` the prelude passes, and what it leaves is `startMail`.
  have hprelude : mailPrelude (byte 'M') (.mail fields) s =
      (.ok (), (mailPrelude (byte 'M') (.mail fields) s).2) := by
    simp [mailPrelude, require, run_bind, h]
  obtain ⟨-, hstart⟩ := mailPrelude_ok hprelude
  refine (run_bind_of_ok hprelude).trans ?_
  show (arm (byte 'M') (.mail fields) >>= finish)
    ((mailPrelude (byte 'M') (.mail fields) s).2.activateMacros (byte 'M')) = _
  rw [hstart]

/-- MAIL out of its place is refused after its macros were activated. -/
theorem dispatch_misplaced {fields : List Bytes} {s : Session} (h : s.state ≠ .ready) :
    dispatch (byte 'M') (.mail fields) s =
      (.error (.sequence (byte 'M') s.state.name),
        { s with pendingMacros := s.pendingMacros.set (byte 'M') none }) := by
  refine run_bind_of_error ?_
  simp [mailPrelude, require, run_bind, h]

/-- The arm of MAIL refuses what is over budget, and nothing as misplaced. -/
theorem arm_mail_raises (op : UInt8) (fields : List Bytes) :
    Raises (fun e => ∀ cmd state, e ≠ .sequence cmd state)
      (arm op (.mail fields) >>= finish) := by
  have haccount : ∀ fields, Raises (fun e => ∀ cmd state, e ≠ .sequence cmd state)
      (accountEnvelope fields) := by
    intro fields
    induction fields with
    | nil => exact .bind .get fun _ => .failIf fun _ _ => by simp
    | cons field fields ih =>
      refine .bind .get fun s => .bind (.lift fun e he => ?_) fun _ => .bind (.modify _) fun _ => ih
      rw [okOr_eq_error he]
      simp
  refine .bind (.bind (haccount fields) fun _ => .bind (.lift fun e he => ?_) fun _ =>
    .bind (.modify _) fun _ => .pure _) fun out => .bind .get fun s => ?_
  · cases fields with
    | nil =>
      obtain rfl := Except.error.inj he
      simp
    | cons address parameters => cases he
  · split
    · exact .bind (.modify _) fun _ => .pure _
    · split
      · refine .bind (.lift fun e he => ?_) fun _ => .pure _
        rw [okOr_eq_error he]
        simp
      · exact .pure _

/-- A MAIL that was not refused for the state is in its place. -/
theorem misplaced_eq_false {fields : List Bytes} {r : Result Step}
    (h : ∀ e, r = .error e → ∀ cmd state, e ≠ .sequence cmd state) :
    MacroEvent.misplaced (.frame (.mail fields) r) = false := by
  cases r with
  | ok step => rfl
  | error e =>
    cases e with
    | sequence cmd state => exact absurd rfl (h _ rfl cmd state)
    | _ => rfl

/-- The batches after the arm and the reply tail of a command that leaves them alone. -/
theorem tail_batches (op : UInt8) {c : Command} (habort : c ≠ .abort) (hquit : c ≠ .quit)
    (hnew : c ≠ .quitNewConnection) (s : Session) :
    ((arm op c >>= finish) s).2.batches = s.batches := by
  have hkeeps : Keeps SameBatches (arm op c >>= finish) :=
    .bind (arm_batches op habort hquit hnew) finish_batches
  exact hkeeps s

/-- MAIL changes the batches as the log of the macros says. -/
theorem dispatch_mail_batches (fields : List Bytes) (s : Session) :
    (dispatch (byte 'M') (.mail fields) s).2.batches =
      MacroEvent.apply s.batches
        (.frame (.mail fields) (dispatch (byte 'M') (.mail fields) s).1) := by
  by_cases hready : s.state = .ready
  -- Past the prelude a MAIL can still be refused, but never as misplaced: the batches decide.
  · have hplaced : MacroEvent.misplaced
        (.frame (.mail fields) (dispatch (byte 'M') (.mail fields) s).1) = false := by
      rw [dispatch_mail hready]
      refine misplaced_eq_false fun e he => ?_
      exact arm_mail_raises (byte 'M') fields s.startMail e _ (Prod.ext he rfl)
    rw [MacroEvent.apply_mail hplaced, dispatch_mail hready]
    exact tail_batches _ (by simp) (by simp) (by simp) _
  · have hmisplaced : MacroEvent.misplaced
        (.frame (.mail fields) (dispatch (byte 'M') (.mail fields) s).1) = true := by
      rw [dispatch_misplaced hready]
      rfl
    rw [MacroEvent.apply_misplaced hmisplaced, dispatch_misplaced hready]
    rfl

/-- Activation before a reset of the transaction is lost. -/
theorem resetMessage_batches (s : Session) {op : UInt8} (hC : op ≠ byte 'C') (hH : op ≠ byte 'H') :
    (s.activateMacros op).resetMessage.batches = (s.macros.retain, s.pendingMacros.retain) := by
  show ((s.macros.set op _).retain, (s.pendingMacros.set op none).retain) = _
  rw [Batches.retain_set _ _ hC hH, Batches.retain_set _ _ hC hH]

/-- ABORT keeps the batches of the connection only. -/
theorem dispatch_abort_batches (s : Session) :
    (dispatch (byte 'A') .abort s).2.batches = (s.macros.retain, s.pendingMacros.retain) := by
  rw [← @resetMessage_batches s (byte 'A') (by decide) (by decide)]
  refine (finish_batches {} _).trans ?_
  show batches (if _ then _ else _) = _
  split <;> rfl

/-- A command does to the batches what its event says. -/
theorem dispatch_batches (c : Command) (s : Session)
    (hnegotiate : ∀ offered, c ≠ .negotiate offered)
    (hmacros : ∀ stage values, c ≠ .macros stage values) :
    (dispatch c.opcode c s).2.batches =
      MacroEvent.apply s.batches (.frame c (dispatch c.opcode c s).1) := by
  cases c with
  | negotiate offered => exact absurd rfl (hnegotiate offered)
  | macros stage values => exact absurd rfl (hmacros stage values)
  | mail fields => exact dispatch_mail_batches fields s
  | abort => exact dispatch_abort_batches s
  | quit =>
    refine (finish_batches { close := true } _).trans ?_
    exact @resetMessage_batches s (byte 'Q') (by decide) (by decide)
  -- The arm starts from an empty session, so what came before does not matter.
  | quitNewConnection => exact finish_batches {} _
  | _ =>
    rw [dispatch_of_not_mail (by simp)]
    exact tail_batches _ (by simp) (by simp) (by simp) _

/-- The negotiation leaves the batches. -/
theorem negotiate_batches (op : UInt8) (offered : Options) :
    Keeps SameBatches (negotiate op offered) :=
  .bind (require_batches _ _) fun _ => .bind (.failIf _ _) fun _ => .bind .get fun _ =>
    .bind (.lift _) fun _ => .bind (.modify fun _ => rfl) fun _ => .pure _

/-- A definition replaces what was defined for its stage. -/
theorem defineMacros_batches (stage : UInt8) (values : List (Bytes × Bytes)) (s : Session) :
    (defineMacros stage values s).2.batches =
      (s.macros, s.pendingMacros.set stage (some (.collect values))) := by
  unfold defineMacros
  rw [run_bind_of_ok (run_modify _ s)]
  -- A batch over the limit is refused, and stored all the same.
  refine Keeps.bind (R := SameBatches) .get (fun _ => ?_) _
  exact .bind (.failIf _ _) fun _ => .pure _

/-- A command accepted for dispatch, in a session that listens. -/
theorem accept_of_open {c : Command} {s : Session} (hstate : s.state ≠ .initial)
    (hnegotiate : ∀ offered, c ≠ .negotiate offered)
    (hmacros : ∀ stage values, c ≠ .macros stage values) (op : UInt8) :
    accept op c s = dispatch op c s := by
  have hcheck : ∀ x : SessionM Step,
      (failIf (s.state = .initial) (.invalid "negotiate first") >>= fun _ => x) s = x s :=
    fun x => run_failIf_bind_of_neg hstate
  cases c with
  | negotiate offered => exact absurd rfl (hnegotiate offered)
  | macros stage values => exact absurd rfl (hmacros stage values)
  | _ => exact hcheck _

/-- A frame the session takes note of does to the batches what its event says. -/
theorem accept_batches (c : Command) {s : Session} (hstate : s.state ≠ .initial) :
    (accept c.opcode c s).2.batches =
      MacroEvent.apply s.batches (.frame c (accept c.opcode c s).1) := by
  cases c with
  | negotiate offered => exact negotiate_batches _ offered s
  | macros stage values =>
    show ((failIf (s.state = .initial) (.invalid "negotiate first") >>= fun _ =>
      defineMacros stage values) s).2.batches = _
    rw [run_failIf_bind_of_neg hstate]
    exact defineMacros_batches stage values s
  | _ =>
    rw [accept_of_open hstate (by simp) (by simp)]
    exact dispatch_batches _ s (by simp) (by simp)

/-- Before negotiation no command reaches the batches. -/
theorem accept_initial_batches (op : UInt8) (c : Command) {s : Session}
    (hstate : s.state = .initial) : SameBatches s (accept op c s).2 := by
  have hrefused : ∀ x : SessionM Step, SameBatches s
      ((failIf (s.state = .initial) (.invalid "negotiate first") >>= fun _ => x) s).2 := by
    intro x
    rw [run_failIf_bind_of_pos hstate]
    rfl
  cases c with
  | negotiate offered => exact negotiate_batches op offered s
  | _ => exact hrefused _

/-- What an event, or none, does to the batches. -/
def applied (b : Batches × Batches) : Option MacroEvent → Batches × Batches
  | some e => e.apply b
  | none => b

/-- A frame that decodes, in a session that listens, reaches its arm. -/
theorem receive_of_listens {f : Frame} {c : Command} {s : Session} (hc : Command.decode f = .ok c)
    (h : Listens s) : receive f s = accept c.opcode c s := by
  obtain ⟨hpending, -, hclosed⟩ := h
  have hnone : ¬ s.pending.isSome := by simp [hpending]
  unfold receive
  rw [run_bind_of_ok (run_get s), run_failIf_bind_of_neg hnone, hc,
    run_bind_of_ok (run_lift _ s), run_failIf_bind_of_neg hclosed, Command.decode_opcode hc]

/-- A frame the session takes no note of leaves the batches alone. -/
theorem receive_ignored {f : Frame} {s : Session}
    (h : ∀ c, Command.decode f = .ok c → ¬ Listens s) : SameBatches s (receive f s).2 := by
  unfold receive
  rw [run_bind_of_ok (run_get s)]
  by_cases hpending : s.pending.isSome
  · rw [run_failIf_bind_of_pos hpending]
    exact Std.Refl.refl s
  rw [run_failIf_bind_of_neg hpending]
  cases hc : Command.decode f with
  | error e => exact Std.Refl.refl s
  | ok c =>
    rw [run_bind_of_ok (run_lift _ s)]
    by_cases hclosed : s.state = .closed
    · rw [run_failIf_bind_of_pos hclosed]
      exact Std.Refl.refl s
    · rw [run_failIf_bind_of_neg hclosed]
      have hnone : s.pending = none := Option.not_isSome_iff_eq_none.mp hpending
      -- Not listening, not pending and not closed: only `initial` is left.
      have hinitial : s.state = .initial := by
        by_contra hstate
        exact h c hc ⟨hnone, hstate, hclosed⟩
      exact accept_initial_batches _ c hinitial

/-- A frame changes the batches as the log of the macros says. -/
theorem receive_batches (f : Frame) (s : Session) :
    (receive f s).2.batches = applied s.batches (heard s (.receive f)) := by
  cases hc : Command.decode f with
  | error e =>
    have hheard : heard s (.receive f) = none := by simp only [heard, hc]
    rw [hheard]
    exact receive_ignored fun c hc' => by rw [hc] at hc'; cases hc'
  | ok c =>
    by_cases h : Listens s
    · have hheard : heard s (.receive f) = some (.frame c (receive f s).1) := by
        simp only [heard, hc, if_pos h]
      rw [hheard, receive_of_listens hc h]
      exact accept_batches c h.2.1
    · have hheard : heard s (.receive f) = none := by simp only [heard, hc, if_neg h]
      rw [hheard]
      exact receive_ignored fun _ _ => h

/-- A settled verdict changes the batches as the log of the macros says. -/
theorem settle_batches (stage : Stage) (v : Verdict) (s : Session) :
    (settle stage v s).batches = MacroEvent.apply s.batches (.decision stage v) := by
  unfold MacroEvent.apply endsTransaction settle
  cases stage <;> cases v <;> rfl

/-- A decision changes the batches as the log of the macros says. -/
theorem complete_batches (d : Decision) (s : Session) :
    (complete d s).2.batches = applied s.batches (heard s (.complete d)) := by
  rcases hr : complete d s with ⟨r, t⟩
  cases r with
  | error e =>
    have hheard : heard s (.complete d) = none := by
      simp only [heard, hr]
      cases s.pending <;> rfl
    rw [hheard, complete_error hr]
    rfl
  | ok frames =>
    obtain ⟨stage, hc⟩ := complete_ok hr
    have hheard : heard s (.complete d) = some (.decision stage d.verdict) := by
      simp only [heard, hr, hc.pending]
    rw [hheard, hc.settled]
    exact settle_batches stage d.verdict s

/-- **One call** does to the batches what its event says. -/
theorem call_batches (s : Session) (i : Call) :
    (s.call i).2.batches = applied s.batches (heard s i) := by
  cases i with
  | receive f => exact receive_batches f s
  | complete d => exact complete_batches d s

/-! ### Whole runs -/

/-- A run extends what the reference finds. -/
theorem holds_after {s : Session} {log : List MacroEvent} (h : Reading.Holds log s.batches)
    (calls : List Call) :
    Reading.Holds (events s calls ++ log) (Machine.after call s calls).batches := by
  -- Each call adds at most one event in front of the history so far.
  induction calls generalizing s log with
  | nil => exact h
  | cons i calls ih =>
    have hnext : Reading.Holds ((heard s i).toList ++ log) (s.call i).2.batches := by
      rw [call_batches]
      cases heard s i with
      | none => exact h
      | some e => exact h.apply e
    show Reading.Holds (events (s.call i).2 calls ++ (heard s i).toList ++ log) _
    rw [List.append_assoc]
    exact ih hnext

/-- The batches in force decide what a session finds. -/
theorem macroValue_of_holds {s : Session} {log : List MacroEvent} (h : Reading.Holds log s.batches)
    (name : Str) : s.macroValue name = Reading.exact.lookup log name := by
  have hactive : ∀ c ∈ Command.macroStages, s.macros c = Reading.exact.activeBatch c log :=
    fun c hc => (h c hc).1
  have hclasses : ∀ c ∈ ascii "EBNLTURMHC", c ∈ Command.macroStages := by decide +kernel
  unfold macroValue Reading.lookup
  -- The order of the classes is the order of the search: induction on that list.
  generalize ascii "EBNLTURMHC" = classes at hclasses
  induction classes with
  | nil => rfl
  | cons c classes ih =>
    obtain ⟨hc, hclasses⟩ := List.forall_mem_cons.mp hclasses
    rw [List.findSome?_cons, List.findSome?_cons, ih hclasses, hactive c hc]
    simp only [Option.orElse_eq_or]

/-- **What a session finds** is what the reference finds in the history of its run, and where no
    frame was refused every reading of the history finds the same. -/
theorem macroValue_eq_lookup (limits : Limits) (stages : List Stage) (wanted : UInt32)
    (macroLists : MacroLists) (calls : List Call) (name : Str) :
    let s₀ := (new limits stages wanted).requestMacros macroLists
    let found := (Machine.after call s₀ calls).macroValue name
    found = Reading.exact.lookup (events s₀ calls) name ∧
      ((∀ e ∈ events s₀ calls, e.accepted = true) →
        found = Reading.received.lookup (events s₀ calls) name ∧
          found = Reading.acceptedOnly.lookup (events s₀ calls) name) := by
  intro s₀ found
  have hstart : Reading.Holds [] s₀.batches := fun _ _ => ⟨rfl, rfl⟩
  have hend := holds_after hstart calls
  rw [List.append_nil] at hend
  have hfound : found = Reading.exact.lookup (events s₀ calls) name := macroValue_of_holds hend name
  refine ⟨hfound, fun haccepted => ?_⟩
  -- Without refusals the three readings differ nowhere on this history.
  have hplaced : ∀ e ∈ events s₀ calls, e.misplaced = false :=
    fun e he => MacroEvent.misplaced_of_accepted (haccepted e he)
  constructor
  · refine hfound.trans (Reading.lookup_congr fun e he => ?_)
    simp [Reading.exact, Reading.received, haccepted e he, hplaced e he]
  · refine hfound.trans (Reading.lookup_congr fun e he => ?_)
    simp [Reading.exact, Reading.acceptedOnly, haccepted e he, hplaced e he]

/-- A definition of one macro for MAIL. -/
def macroFrame (name value : String) : Frame :=
  ⟨byte 'D', ascii "M" ++ ascii name ++ [0] ++ ascii value ++ [0]⟩

/-- A run of which the definitions for a MAIL are seen at the next callback. -/
def acceptedCalls : List Call :=
  [.receive Sample.offer, .receive Sample.connect, .receive (macroFrame "a" "1"),
    .receive Sample.mail]

/-- The macro of a transaction, by the session and by the log of its events. -/
theorem macroValue_eq_lookup_at_mail :
    (Machine.after call (Sample.session [.mail]) acceptedCalls).macroValue "a" =
        some (ascii "1") ∧
      (Machine.after call (Sample.session [.mail]) acceptedCalls).macroValue "a" =
        Reading.received.lookup (events (Sample.session [.mail]) acceptedCalls) "a" := by
  have haccepted : ∀ e ∈ events (Sample.session [.mail]) acceptedCalls, e.accepted = true := by
    decide +kernel
  have hfound := macroValue_eq_lookup {} [.mail] supportedActions [] acceptedCalls "a"
  exact ⟨by decide +kernel, (hfound.2 haccepted).1⟩

/-- A MAIL that came too early, and one in the middle of a transaction. -/
def misplacedCalls : List Call :=
  [.receive Sample.offer, .receive (macroFrame "a" "1"), .receive Sample.mail,
    .receive Sample.connect, .receive Sample.mail, .complete {}, .receive (macroFrame "a" "2"),
    .receive Sample.mail, .receive (Sample.rcpt "<b>")]

/-- A misplaced MAIL takes the definitions waiting for it and puts none in force, so neither
    counting refused frames nor leaving them out finds what the session finds. -/
theorem misplaced_mail_macros :
    let s₀ := Sample.session [.mail, .recipient]
    let s := Machine.after call s₀ misplacedCalls
    s.pending = some .recipient ∧ s.macroValue "a" = none ∧
      Reading.received.lookup (events s₀ misplacedCalls) "a" = some (ascii "2") ∧
        Reading.acceptedOnly.lookup (events s₀ misplacedCalls) "a" = some (ascii "1") := by
  decide +kernel

end Session

end MtaHooks
