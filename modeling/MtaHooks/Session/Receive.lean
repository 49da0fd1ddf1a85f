import MtaHooks.Session.Basic

namespace MtaHooks

open FallibleState

/-!
# `Session::receive`

One frame of the MTA.  `receive` refuses a frame while a callback is pending, decodes it,
settles negotiation (`negotiate`) and macro definitions (`defineMacros`) and hands every
other command to `dispatch`: the prelude of MAIL, the activation of the macro batch, the
command's own arm (`arm`) and the shared reply tail (`finish`).

A refusal keeps the mutations made before it, as `&mut self` does in the source.
-/

namespace Session

/-- The command is allowed in the given states only. -/
def require (cmd : UInt8) (states : List State) : SessionM Unit := do
  let s ← get
  failIf (s.state ∉ states) (.sequence cmd s.state.name)

/-- Charge the message budget. -/
def account (bytes : ℕ) : SessionM Unit := do
  let s ← get
  let total ← lift (okOr (checkedAdd s.message.bytes bytes) (.limit "message"))
  -- The counter is stored before it is compared: what is refused is charged too.
  modify fun s => { s with message := { s.message with bytes := total } }
  failIf (s.limits.messageBytes < total) (.limit "message")

/-- Charge the envelope budget, one terminator byte for each field; attempted recipients
    count too. -/
def accountEnvelope : List Bytes → SessionM Unit
  | [] => do
    let s ← get
    failIf (s.limits.envelopeBytes < s.message.envelopeBytes) (.limit "envelope")
  | field :: fields => do
    let s ← get
    let total ←
      lift (okOr (checkedAdd s.message.envelopeBytes (field.length + 1)) (.limit "envelope"))
    modify fun s => { s with message := { s.message with envelopeBytes := total } }
    accountEnvelope fields

/-! ### Negotiation and macro definitions -/

/-- The no-reply bit of each callback stage. -/
def stageFlags : List (Stage × UInt32) :=
  [(.connect, nrConnect), (.helo, nrHelo), (.mail, nrMail), (.recipient, nrRcpt)]

/-- The protocol word the filter is ready for: no reply where it has no callback. -/
def wantedProtocol (stages : List Stage) : UInt32 :=
  stageFlags.foldl (fun protocol flag =>
    if flag.1 ∈ stages then protocol else protocol ||| flag.2)
    (nrHeader ||| nrData ||| nrUnknown ||| nrEoh ||| nrBody ||| headerLeadingSpace)

/-- The options both sides agree on. -/
def negotiated (s : Session) (offered : Options) : Options where
  version := version
  actions := offered.actions &&& s.wantedActions
  protocol := offered.protocol &&& wantedProtocol s.stages

/-- Answer the negotiation frame. -/
def negotiate (opcode : UInt8) (offered : Options) : SessionM Step := do
  require opcode [.initial]
  failIf (offered.version < version) (.invalid "milter v6 required")
  let s ← get
  let reply ← lift ((s.negotiated offered).frameWithMacros s.macroLists)
  modify fun s => { s with options := some (s.negotiated offered), state := .negotiated }
  return { frames := [reply] }

/-- Store a macro batch for the next command of its class. -/
def defineMacros (stage : UInt8) (values : List (Bytes × Bytes)) : SessionM Step := do
  modify fun s => { s with pendingMacros := s.pendingMacros.set stage (some (.collect values)) }
  -- Both maps count, with the batch just stored.
  let s ← get
  failIf (s.limits.macroBytes < s.macros.size + s.pendingMacros.size) (.limit "macros")
  return {}

/-! ### Commands -/

/-- What the arm of a command leaves for the reply tail. -/
structure Outcome where
  event : Option Stage := none
  replyBit : Option UInt32 := none
  close : Bool := false

/-- The arm of a command in the large `match`. -/
def arm (opcode : UInt8) : Command → SessionM Outcome
  | .connect info => do
    require opcode [.negotiated]
    modify fun s => { s with connection := some info, state := .ready }
    return { event := some .connect, replyBit := some nrConnect }
  | .helo helo => do
    require opcode [.ready]
    modify fun s => { s with helo := some helo }
    return { event := some .helo, replyBit := some nrHelo }
  | .mail fields => do
    -- The prelude has required the state and emptied the message.
    accountEnvelope fields
    let sender ← lift (EnvelopeAddress.from fields)
    modify fun s => { s with message := { s.message with sender := some sender }, state := .mail }
    return { event := some .mail, replyBit := some nrMail }
  | .recipient fields => do
    require opcode [.mail, .recipients]
    -- Charged before the count is checked, so a refused recipient is charged as well.
    accountEnvelope fields
    let s ← get
    failIf (s.limits.recipients ≤ s.message.recipients.length) (.limit "recipients")
    let recipient ← lift (EnvelopeAddress.from fields)
    modify fun s =>
      { s with
        message := { s.message with recipients := s.message.recipients ++ [recipient] }
        state := .recipients }
    return { event := some .recipient, replyBit := some nrRcpt }
  | .data => do
    require opcode [.recipients]
    modify fun s => { s with state := .data }
    return { replyBit := some nrData }
  | .header name value => do
    require opcode [.data, .headers]
    let s ← get
    failIf (s.limits.headers ≤ s.message.headers.length) (.limit "headers")
    -- A colon, a space and a line end.
    account (name.length + value.length + 4)
    modify fun s =>
      { s with
        message := { s.message with headers := s.message.headers ++ [(name, value)] }
        state := .headers }
    return { replyBit := some nrHeader }
  | .endHeaders => do
    require opcode [.data, .headers]
    -- The empty line before the body.
    account 2
    modify fun s => { s with state := .body }
    return { replyBit := some nrEoh }
  | .body chunk => do
    require opcode [.body]
    account chunk.length
    modify fun s => { s with message := { s.message with body := s.message.body ++ chunk } }
    return { replyBit := some nrBody }
  | .endMessage => do
    require opcode [.body]
    -- EOM always has a final response, even with no subscribed policy.
    return { event := some .endMessage }
  | .abort => do
    modify resetMessage
    -- A stopped session stays stopped until the next connection.
    modify fun s =>
      if s.connection.isSome ∧ s.state ≠ .stopped then { s with state := .ready } else s
    return {}
  | .quitNewConnection => do
    modify resetMessage
    -- The options stay: a new connection is not negotiated again.
    modify fun s =>
      { s with
        connection := none
        helo := none
        macros := .empty
        pendingMacros := .empty
        state := .negotiated }
    return {}
  | .quit => do
    modify resetMessage
    modify fun s => { s with state := .closed }
    return { close := true }
  | .unknown _ => return { replyBit := some nrUnknown }
  -- Both are handled before the match.
  | .negotiate _ => fail (.panic "unreachable")
  | .macros _ _ => fail (.panic "unreachable")

/-- A callback is raised for a subscribed stage; EOM always raises one. -/
def raised (stages : List Stage) (event : Option Stage) : Option Stage :=
  event.filter fun stage => stage = .endMessage ∨ stage ∈ stages

/-- The reply tail: wait for the decision of a raised callback, or reply `c` unless the
    command's no-reply bit was negotiated. -/
def finish (out : Outcome) : SessionM Step := do
  let s ← get
  match raised s.stages out.event with
  | some stage =>
    modify fun s => { s with pending := some stage }
    return { event := some stage, close := out.close }
  | none =>
    match out.replyBit with
    | some b =>
      let options ← lift (okOr s.options (.panic "negotiated"))
      let frames := if options.protocol &&& b = 0 then [Frame.empty (byte 'c')] else []
      return { frames, close := out.close }
    | none => return { close := out.close }

/-- MAIL starts from an empty message; the macro batch defined for it survives the
    reset. -/
def mailPrelude (opcode : UInt8) : Command → SessionM Unit
  | .mail _ => do
    let s ← get
    let mailMacros := s.pendingMacros (byte 'M')
    -- The batch is taken out before the state is checked, so a misplaced MAIL loses it.
    modify fun s => { s with pendingMacros := s.pendingMacros.set (byte 'M') none }
    require opcode [.ready]
    modify resetMessage
    modify fun s => { s with pendingMacros := s.pendingMacros.set (byte 'M') mailMacros }
  | _ => return ()

/-- Every command but negotiation and macro definitions. -/
def dispatch (opcode : UInt8) (command : Command) : SessionM Step := do
  mailPrelude opcode command
  modify (activateMacros · opcode)
  let out ← arm opcode command
  finish out

/-- A command in a session that is not closed. -/
def accept (opcode : UInt8) : Command → SessionM Step
  | .negotiate offered => negotiate opcode offered
  | .macros stage values => do
    let s ← get
    failIf (s.state = .initial) (.invalid "negotiate first")
    defineMacros stage values
  | command => do
    let s ← get
    failIf (s.state = .initial) (.invalid "negotiate first")
    dispatch opcode command

/-- Receive one frame of the MTA. -/
def receive (frame : Frame) : SessionM Step := do
  let s ← get
  failIf s.pending.isSome (.invalid "callback has no decision yet")
  let command ← lift (Command.decode frame)
  failIf (s.state = .closed) (.invalid "closed session")
  accept frame.command command

end Session

end MtaHooks
