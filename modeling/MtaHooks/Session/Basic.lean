import MtaHooks.Protocol.Command
import MtaHooks.Protocol.Modification
import MtaHooks.Lib.FallibleState
import Mathlib.Data.List.AList
import Mathlib.Data.FinEnum
import Mathlib.Algebra.BigOperators.Group.Finset.Basic

namespace MtaHooks

open scoped BigOperators

/-!
# Session data

The state a filter keeps for one milter connection: the position in the protocol, what was
negotiated, the SMTP connection, the current message, the macro batches and the callback
awaiting a decision.  `Session` carries every field of the source, private ones included.

The helpers that several callbacks share are here too: `resetMessage`, which ends a transaction,
and `activateMacros`, which takes the batch of a command.  Each has a lemma for every field that
it leaves alone.
-/

/-- Resource limits of one connection. -/
structure Limits where
  frameBytes : ℕ := 131073
  messageBytes : ℕ := 25 * 1024 * 1024
  envelopeBytes : ℕ := 1024 * 1024
  headers : ℕ := 10000
  recipients : ℕ := 1000
  macroBytes : ℕ := 65536
  modifications : ℕ := 1000
  deriving DecidableEq

/-- The callbacks a policy may subscribe. -/
inductive Stage
  | connect
  | helo
  | mail
  | recipient
  | endMessage
  deriving DecidableEq

/-- The name of a stage in hook requests. -/
def Stage.hookName : Stage → Str
  | .connect => "connect"
  | .helo => "ehlo"
  | .mail => "mail"
  | .recipient => "rcpt"
  | .endMessage => "data"

/-- The position in the protocol. -/
inductive State
  | initial
  | negotiated
  | ready
  | mail
  | recipients
  | data
  | headers
  | body
  | stopped
  | closed
  deriving DecidableEq

/-- The name of a state in error texts. -/
def State.name : State → String
  | .initial => "initial"
  | .negotiated => "negotiated"
  | .ready => "ready"
  | .mail => "mail"
  | .recipients => "recipients"
  | .data => "data"
  | .headers => "headers"
  | .body => "body"
  | .stopped => "stopped"
  | .closed => "closed"

/-- An envelope address with its ESMTP parameters. -/
structure EnvelopeAddress where
  address : Bytes := []
  parameters : List Bytes := []
  deriving DecidableEq

/-- The fields of MAIL or RCPT: the address first, then the parameters. -/
def EnvelopeAddress.from : List Bytes → Result EnvelopeAddress
  | address :: parameters => .ok ⟨address, parameters⟩
  | [] => .error (.panic "removal index")

/-- The message of the current transaction and its byte counters. -/
structure Message where
  sender : Option EnvelopeAddress := none
  recipients : List EnvelopeAddress := []
  /-- Names and values as received, including folding and negotiated leading space. -/
  headers : List (Bytes × Bytes) := []
  body : Bytes := []
  bytes : ℕ := 0
  envelopeBytes : ℕ := 0
  deriving DecidableEq

/-! ### Macro batches -/

/-- One batch of macro definitions: names with their values, each name once. -/
abbrev Macros := AList fun _ : Bytes => Bytes

/-- The batch of a list of definitions; the last definition of a name counts. -/
def Macros.collect (values : List (Bytes × Bytes)) : Macros :=
  values.foldl (fun m v => m.insert v.1 v.2) ∅

/-- The bytes of all names and values of a batch. -/
def Macros.size (m : Macros) : ℕ := (m.entries.map fun e => e.1.length + e.2.length).sum

/-- The macro batches by class letter. -/
abbrev Batches := UInt8 → Option Macros

namespace Batches

/-- No batch for any class. -/
def empty : Batches := fun _ => none

/-- Set or remove the batch of a class. -/
def set (m : Batches) (c : UInt8) (b : Option Macros) : Batches := Function.update m c b

/-- Keep the batches of CONNECT and HELO only. -/
def retain (m : Batches) : Batches :=
  fun c => if c = byte 'C' ∨ c = byte 'H' then m c else none

/-- The bytes of all batches. -/
def size (m : Batches) : ℕ := ∑ c : UInt8, ((m c).map Macros.size).getD 0

/-- A batch that is set is there. -/
@[simp] theorem set_same (m : Batches) (c : UInt8) (b : Option Macros) : m.set c b c = b := by
  simp [set]

/-- The others stay as they are. -/
theorem set_of_ne (m : Batches) {c d : UInt8} (b : Option Macros) (h : d ≠ c) :
    m.set c b d = m d := by
  simp [set, h]

/-- The last batch that is set counts. -/
@[simp] theorem set_set (m : Batches) (c : UInt8) (b b' : Option Macros) :
    (m.set c b).set c b' = m.set c b' := by
  simp [set]

/-- The end of a transaction drops every other batch. -/
theorem retain_of_ne (m : Batches) {c : UInt8} (hC : c ≠ byte 'C') (hH : c ≠ byte 'H') :
    m.retain c = none := by
  simp only [retain]
  rw [if_neg (by simp [hC, hH])]

/-- A class that `retain` drops may be set freely before it. -/
theorem retain_set (m : Batches) {c : UInt8} (b : Option Macros) (hC : c ≠ byte 'C')
    (hH : c ≠ byte 'H') : (m.set c b).retain = m.retain := by
  funext d
  by_cases hd : d = c
  · rw [hd, retain_of_ne _ hC hH, retain_of_ne _ hC hH]
  · simp only [retain, set_of_ne m b hd]

/-- Removing a class that `retain` dropped changes nothing. -/
theorem retain_set_none (m : Batches) {c : UInt8} (hC : c ≠ byte 'C') (hH : c ≠ byte 'H') :
    m.retain.set c none = m.retain := by
  funext d
  by_cases hd : d = c
  · rw [hd, set_same, retain_of_ne _ hC hH]
  · rw [set_of_ne _ _ hd]

/-- What `retain` leaves depends on the CONNECT and HELO batches only. -/
theorem retain_congr {m m' : Batches} (hC : m (byte 'C') = m' (byte 'C'))
    (hH : m (byte 'H') = m' (byte 'H')) : m.retain = m'.retain := by
  funext d
  simp only [retain]
  split
  next h => rcases h with rfl | rfl <;> assumption
  next => rfl

/-- It retains the batch of CONNECT. -/
@[simp] theorem retain_connect (m : Batches) : m.retain (byte 'C') = m (byte 'C') := by
  simp [retain]

/-- It retains the batch of HELO. -/
@[simp] theorem retain_helo (m : Batches) : m.retain (byte 'H') = m (byte 'H') := by
  simp [retain]

end Batches

/-! ### The session -/

/-- The state of one milter connection. -/
structure Session where
  state : State
  options : Option Options
  connection : Option Connection
  helo : Option Bytes
  message : Message
  limits : Limits
  macros : Batches
  pendingMacros : Batches
  pending : Option Stage
  stages : List Stage
  wantedActions : UInt32
  macroLists : MacroLists

/-- What `receive` hands to the driver. -/
structure Step where
  frames : List Frame := []
  event : Option Stage := none
  close : Bool := false
  deriving DecidableEq

/-- The outcome of a callback. -/
inductive Verdict
  | continue
  | accept
  | reject
  | tempfail
  | discard
  | reply (code : UInt16) (enhanced : Option Str) (message : Str)
  | shutdown
  deriving DecidableEq

/-- A verdict with the modifications that go with it. -/
structure Decision where
  verdict : Verdict := .continue
  modifications : List Modification := []
  deriving DecidableEq

/-- A method on a mutable session. -/
abbrev SessionM := FallibleState Session Error

namespace Session

/-- A fresh session. -/
def new (limits : Limits) (stages : List Stage) (wantedActions : UInt32) : Session where
  state := .initial
  options := none
  connection := none
  helo := none
  message := {}
  limits := limits
  macros := .empty
  pendingMacros := .empty
  pending := none
  stages := stages
  wantedActions := wantedActions &&& supportedActions
  macroLists := []

/-- Override the macro lists of the negotiation reply. -/
def requestMacros (s : Session) (macroLists : MacroLists) : Session :=
  { s with macroLists := macroLists }

/-- Drop the transaction: message, its macro batches and a pending callback. -/
def resetMessage (s : Session) : Session :=
  { s with
    message := {}
    macros := s.macros.retain
    pendingMacros := s.pendingMacros.retain
    pending := none }

/-- The batch defined for a command becomes the active one of its class; without a
    definition the class has no active batch. -/
def activateMacros (s : Session) (cmd : UInt8) : Session :=
  { s with
    macros := s.macros.set cmd (s.pendingMacros cmd)
    pendingMacros := s.pendingMacros.set cmd none }

/-- Look a macro up, plain or in braces; later protocol stages shadow earlier ones. -/
def macroValue (s : Session) (name : Str) : Option Bytes :=
  -- From the last command of a transaction to the first.
  (ascii "EBNLTURMHC").findSome? fun stage =>
    (s.macros stage).bind fun m =>
      -- The name without braces wins within a batch.
      (m.lookup name).orElse fun _ => m.lookup ([0x7b] ++ name ++ [0x7d])

/-- Header values arrive with their leading space. -/
def leadingSpace (s : Session) : Bool :=
  match s.options with
  | some o => o.protocol &&& headerLeadingSpace != 0
  | none => false

/-- The value begins with a line end. -/
def startsWithLineEnd (value : Bytes) : Bool :=
  value.head? = some (byte '\r') || value.head? = some (byte '\n')

/-- One field of the raw message. -/
def rawField (leadingSpace : Bool) (field : Bytes × Bytes) : Bytes :=
  field.1 ++ [byte ':'] ++
    -- Without the negotiated space the MTA has stripped one, except before a folded value.
    (if !leadingSpace && !startsWithLineEnd field.2 then [byte ' '] else []) ++
    field.2 ++ [byte '\r', byte '\n']

/-- The milter-visible message. -/
def rawMessage (s : Session) : Bytes :=
  s.message.headers.flatMap (rawField s.leadingSpace) ++ [byte '\r', byte '\n'] ++ s.message.body

/-! ### Small lemmas about the updates -/

@[simp] theorem resetMessage_message (s : Session) : s.resetMessage.message = {} := rfl
@[simp] theorem resetMessage_pending (s : Session) : s.resetMessage.pending = none := rfl
@[simp] theorem resetMessage_state (s : Session) : s.resetMessage.state = s.state := rfl
@[simp] theorem resetMessage_options (s : Session) : s.resetMessage.options = s.options := rfl
@[simp] theorem resetMessage_connection (s : Session) :
    s.resetMessage.connection = s.connection := rfl
@[simp] theorem resetMessage_helo (s : Session) : s.resetMessage.helo = s.helo := rfl
@[simp] theorem resetMessage_limits (s : Session) : s.resetMessage.limits = s.limits := rfl
@[simp] theorem resetMessage_stages (s : Session) : s.resetMessage.stages = s.stages := rfl

@[simp] theorem activateMacros_message (s : Session) (c : UInt8) :
    (s.activateMacros c).message = s.message := rfl
@[simp] theorem activateMacros_pending (s : Session) (c : UInt8) :
    (s.activateMacros c).pending = s.pending := rfl
@[simp] theorem activateMacros_state (s : Session) (c : UInt8) :
    (s.activateMacros c).state = s.state := rfl
@[simp] theorem activateMacros_options (s : Session) (c : UInt8) :
    (s.activateMacros c).options = s.options := rfl
@[simp] theorem activateMacros_connection (s : Session) (c : UInt8) :
    (s.activateMacros c).connection = s.connection := rfl
@[simp] theorem activateMacros_helo (s : Session) (c : UInt8) :
    (s.activateMacros c).helo = s.helo := rfl
@[simp] theorem activateMacros_limits (s : Session) (c : UInt8) :
    (s.activateMacros c).limits = s.limits := rfl
@[simp] theorem activateMacros_stages (s : Session) (c : UInt8) :
    (s.activateMacros c).stages = s.stages := rfl

end Session

end MtaHooks
