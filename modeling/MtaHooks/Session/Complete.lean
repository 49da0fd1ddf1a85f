import MtaHooks.Session.Basic

namespace MtaHooks

open FallibleState

/-!
# `Session::complete`

The decision of a callback.  The whole decision is validated first: `modificationFrames`
encodes the modifications within the budget and `finalFrame` the verdict.  Only then the
callback is closed and the session moves on (`settle`).

The estimate of a modification is held against the budget before anything of it is encoded, and
its frames once more.  Frames that were encoded before a later modification failed are dropped with
the rest.
-/

namespace Session

/-- Append the frames of one modification within the output budget. -/
def budgetFrames (limits : Limits) :
    List Frame → List Frame × ℕ → Result (List Frame × ℕ)
  | [], acc => .ok acc
  | f :: fs, (frames, outputBytes) =>
    if limits.frameBytes < f.payload.length + 1 then .error (.limit "output frame")
    else do
      let outputBytes ← okOr (checkedAdd outputBytes f.payload.length) (.limit "output")
      if limits.messageBytes < outputBytes then .error (.limit "output")
      else budgetFrames limits fs (frames ++ [f], outputBytes)

/-- Check and encode one modification. -/
def modificationStep (limits : Limits) (actions : UInt32) (leadingSpace : Bool)
    (acc : List Frame × ℕ) (m : Modification) : Result (List Frame × ℕ) :=
  if actions &&& m.capability = 0 then .error .notNegotiated
  else do
    -- The estimate is checked before anything is serialized, then the frames themselves.
    let size ← m.payloadBytes leadingSpace
    let nextBytes ← okOr (checkedAdd acc.2 size) (.limit "output")
    if limits.messageBytes < nextBytes then .error (.limit "output")
    else do
      let fs ← m.frames leadingSpace
      budgetFrames limits fs acc

/-- The frames of all modifications. -/
def modificationFrames (limits : Limits) (actions : UInt32) (leadingSpace : Bool)
    (modifications : List Modification) : Result (List Frame) := do
  let acc ← modifications.foldlM (modificationStep limits actions leadingSpace) ([], 0)
  return acc.1

/-- An enhanced status code of the class of the reply code. -/
def enhancedCode (code : UInt16) (enhanced : Str) : Bool :=
  match enhanced.splitOn (byte '.') with
  | [first, second, third] =>
    first = decimal (code / 100).toNat &&
      [second, third].all fun p => !p.isEmpty && p.length ≤ 3 && p.all isAsciiDigit
  | _ => false

/-- The text of a reply: code, optional enhanced code, message. -/
def replyText (code : UInt16) (enhanced : Option Str) (message : Str) : Result Str :=
  match enhanced with
  | none => .ok (decimal code.toNat ++ [byte ' '] ++ message)
  | some enhanced =>
    if enhancedCode code enhanced then
      .ok (decimal code.toNat ++ [byte ' '] ++ enhanced ++ [byte ' '] ++ message)
    else .error (.invalid "enhanced SMTP code")

/-- The frame of an SMTP reply. -/
def replyFrame (code : UInt16) (enhanced : Option Str) (message : Str) : Result Frame := do
  -- The first digit of a refusal; the text may not leave its line.
  rejectIf (¬ (400 ≤ code ∧ code < 600)) (.invalid "SMTP error code must be 4xx or 5xx")
  clean message
  let text ← replyText code enhanced message
  stringFrame (byte 'y') [text]

/-- The final frame of a verdict. -/
def finalFrame : Verdict → Result Frame
  | .continue => .ok (.empty (byte 'c'))
  | .accept => .ok (.empty (byte 'a'))
  | .reject => .ok (.empty (byte 'r'))
  | .tempfail => .ok (.empty (byte 't'))
  | .discard => .ok (.empty (byte 'd'))
  | .reply code enhanced message => replyFrame code enhanced message
  | .shutdown => .ok (.empty shutdown)

/-- The verdict refuses what was asked. -/
def rejected : Verdict → Bool
  | .reject | .tempfail | .reply .. | .shutdown => true
  | .continue | .accept | .discard => false

/-- The verdict ends the filtering of the message. -/
def finished : Verdict → Bool
  | .accept | .discard => true
  | _ => false

/-- Move on after a validated verdict. -/
def settle (stage : Stage) (verdict : Verdict) (s : Session) : Session :=
  let s := { s with pending := none }
  if verdict = .shutdown then
    -- The MTA closes the SMTP session.
    { s.resetMessage with state := .stopped }
  else if rejected verdict ∧ stage = .recipient then
    -- Only the recipient of the callback is refused, the transaction goes on.
    let recipients := s.message.recipients.dropLast
    { s with
      message := { s.message with recipients }
      state := if recipients.isEmpty then .mail else .recipients }
  else if rejected verdict ∧ (stage = .connect ∨ stage = .helo) then
    { s with state := .stopped }
  else if stage = .endMessage ∨ rejected verdict ∨ finished verdict then
    { s.resetMessage with state := .ready }
  else s

/-- Complete the pending callback: all frames of the decision, or an error. -/
def complete (decision : Decision) : SessionM (List Frame) := do
  let s ← get
  let stage ← lift (okOr s.pending (.invalid "no pending callback"))
  let options ← lift (okOr s.options (.panic "negotiated"))
  failIf (decision.modifications ≠ [] ∧ stage ≠ .endMessage) (.invalid "modifications require EOM")
  failIf (s.limits.modifications < decision.modifications.length) (.limit "modifications")
  let frames ← lift
    (modificationFrames s.limits options.actions s.leadingSpace decision.modifications)
  let final ← lift (finalFrame decision.verdict)
  failIf (s.limits.frameBytes < final.payload.length + 1) (.limit "SMTP reply")
  -- Never mutate an unaccepted message.
  let frames := if rejected decision.verdict ∨ decision.verdict = .discard then [] else frames
  modify (settle stage decision.verdict)
  return frames ++ [final]

end Session

end MtaHooks
