import MtaHooks.Hooks.RawMessage

namespace MtaHooks

/-!
# Translation of a hook response

`translate` turns a response into a decision.  No modification is emitted until the whole
response is checked.

* `translate_ok` — what an accepted response is made of: its operations, the edits they leave
  and the modifications of those edits.
-/

namespace Hooks

/-! ### The loop over `set` -/

/-- What the `set` operations leave. -/
structure Answered where
  action : Str := "accept"
  response : Json := .null
  edits : Edits
  raw : Option (List Modification) := none

/-- A path into the message, which a raw replacement overrides. -/
def inMessage (path : Str) : Bool := path = ascii "/message" || startsWith "/message/" path

/-- A part of the SMTP response. -/
def isResponsePart (path : Str) : Bool :=
  path = ascii "/response/code" || path = ascii "/response/enhancedCode" ||
    path = ascii "/response/message"

/-- Set a part of the SMTP response, which starts out as an empty object. -/
def setResponse (path : Str) (value response : Json) : Result Json := do
  -- The parts may come before, after or without the whole response.
  let response := if response.isNull then .object [] else response
  rejectIf (¬ response.isObject) (.invalid "SMTP response object")
  return response.set (afterLast (byte '/') path) value

example : setResponse "/response/code" (.bool true) .null =
    .ok (.object [("code", .bool true)]) := rfl

/-- Apply a `set` operation. -/
def applySet (b64 : Base64) (session : Session) (hasRaw : Bool) (a : Answered) (op : SetOp) :
    Result Answered :=
  if op.path = ascii "/rawMessage" then do
    -- A raw replacement is never overridden, not even by another one.
    rejectIf a.raw.isSome (.invalid "duplicate raw message replacement")
    let raw ← rawReplacement b64 op.value session
    return { a with raw := some raw }
  else if hasRaw && inMessage op.path then .ok a
  else if op.path = ascii "/action" then do
    let action ← okOr op.value.asStr (.invalid "action type")
    return { a with action }
  else if op.path = ascii "/response" then .ok { a with response := op.value }
  else if isResponsePart op.path then do
    let response ← setResponse op.path op.value a.response
    return { a with response }
  else do
    let edits ← a.edits.set session op.path op.value
    return { a with edits }

/-! ### The loops over `add` and `delete` -/

/-- Apply an `add` operation; a raw message leaves no room for header edits. -/
def applyAdd (session : Session) (hasRaw : Bool) (edits : Edits) (op : AddOp) : Result Edits :=
  if hasRaw && inMessage op.path then .ok edits else edits.add session op

/-- Apply a `delete` operation; a raw message leaves no room for header edits. -/
def applyDelete (hasRaw : Bool) (edits : Edits) (op : DeleteOp) : Result Edits :=
  if hasRaw && inMessage op.path then .ok edits else edits.delete op.path

/-! ### The verdict -/

/-- The SMTP code of a rejection. -/
def replyCode (response : Json) : Result UInt16 :=
  match response.get "code" with
  | some c => do
    let code ← okOr c.asU64 (.invalid "SMTP code")
    if code < 2 ^ 16 then return UInt16.ofNat code else .error (.invalid "SMTP code")
  | none => .ok 550

/-- The enhanced code of a rejection. -/
def replyEnhanced (response : Json) : Result (Option Str) :=
  match response.get "enhancedCode" with
  | some .null => .ok none
  | some v => do
    let enhanced ← okOr v.asStr (.invalid "enhanced SMTP code")
    return some enhanced
  | none => .ok none

/-- The text of a rejection. -/
def replyMessage (response : Json) : Result Str :=
  match response.get "message" with
  | some v => okOr v.asStr (.invalid "SMTP response text")
  | none => .ok "Rejected by policy"

/-- The verdict of an action and the modifications it adds. -/
def verdict (action : Str) (response : Json) (stage : Stage) :
    Result (Verdict × List Modification) :=
  if action = ascii "accept" ∧ response.isNull then .ok (.continue, [])
  else if action = ascii "reject" then do
    rejectIf (¬ response.isNull ∧ ¬ response.isObject) (.invalid "SMTP response object")
    let code ← replyCode response
    let enhanced ← replyEnhanced response
    let message ← replyMessage response
    return (.reply code enhanced message, [])
  -- The milter protocol has no discard before MAIL.
  else if action = ascii "discard" ∧ response.isNull ∧ stage ≠ .connect ∧ stage ≠ .helo then
    .ok (.discard, [])
  else if action = ascii "quarantine" ∧ response.isNull ∧ stage = .endMessage then
    .ok (.continue, [.quarantine "MTA Hooks policy"])
  else if action = ascii "disconnect" ∧ response.isNull then .ok (.shutdown, [])
  else .error (.invalid "unsupported action, stage or SMTP response combination")

/-! ### The whole response -/

namespace Operations

/-- The `set` operations, if there are any. -/
def sets (ops : Operations) : List SetOp := ops.set.getD []

/-- The `add` operations, if there are any. -/
def adds (ops : Operations) : List AddOp := ops.add.getD []

/-- The `delete` operations, if there are any. -/
def deletes (ops : Operations) : List DeleteOp := ops.delete.getD []

/-- The response replaces the raw message. -/
def hasRaw (ops : Operations) : Bool := ops.sets.any fun op => op.path = ascii "/rawMessage"

end Operations

/-- The decision of a hook response. -/
def translate (b64 : Base64) (value : Json) (session : Session) (stage : Stage) :
    Result Decision := do
  let ops ← okOr (Operations.fromValue value) (.invalid "hook response schema")
  rejectIf (session.limits.modifications < ops.sets.length + ops.adds.length + ops.deletes.length)
    (.limit "hook operations")
  let a ← ops.sets.foldlM (applySet b64 session ops.hasRaw) { edits := Edits.new session }
  let edits ← ops.adds.foldlM (applyAdd session ops.hasRaw) a.edits
  let edits ← ops.deletes.foldlM (applyDelete ops.hasRaw) edits
  -- Before the end of the message there is nothing to edit.
  rejectIf (stage ≠ .endMessage ∧ (¬ edits.isEmpty ∨ a.raw.isSome))
    (.invalid "message and envelope edits require the data stage")
  let modifications ← edits.modifications session
  let modifications := modifications ++ a.raw.getD []
  -- Encoded here only to refuse what cannot be encoded.
  let _ ← modifications.mapM fun m => m.frames session.leadingSpace
  let (verdict, extra) ← verdict a.action a.response stage
  return { verdict, modifications := modifications ++ extra }

/-- An accepted response: every part of it went through. -/
structure Translated (b64 : Base64) (session : Session) (stage : Stage) (ops : Operations)
    (a : Answered) (added edits : Edits) (modifications extra : List Modification)
    (d : Decision) : Prop where
  sets : ops.sets.foldlM (applySet b64 session ops.hasRaw) { edits := Edits.new session } = .ok a
  adds : ops.adds.foldlM (applyAdd session ops.hasRaw) a.edits = .ok added
  deletes : ops.deletes.foldlM (applyDelete ops.hasRaw) added = .ok edits
  resolved : edits.modifications session = .ok modifications
  encoded : ∀ m ∈ modifications ++ a.raw.getD [], ∃ fs, m.frames session.leadingSpace = .ok fs
  verdict : Hooks.verdict a.action a.response stage = .ok (d.verdict, extra)
  decision : d.modifications = modifications ++ a.raw.getD [] ++ extra

/-- **What an accepted response is made of.** -/
theorem translate_ok {b64 : Base64} {value : Json} {session : Session} {stage : Stage}
    {d : Decision} (h : translate b64 value session stage = .ok d) :
    ∃ ops a added edits modifications extra, Operations.fromValue value = some ops ∧
      Translated b64 session stage ops a added edits modifications extra d := by
  obtain ⟨ops, hops, h⟩ := Result.bind_ok_iff.mp h
  obtain ⟨_, -, h⟩ := Result.bind_ok_iff.mp h
  obtain ⟨a, hsets, h⟩ := Result.bind_ok_iff.mp h
  obtain ⟨added, hadds, h⟩ := Result.bind_ok_iff.mp h
  obtain ⟨edits, hdeletes, h⟩ := Result.bind_ok_iff.mp h
  obtain ⟨_, -, h⟩ := Result.bind_ok_iff.mp h
  obtain ⟨modifications, hresolved, h⟩ := Result.bind_ok_iff.mp h
  obtain ⟨frames, hframes, h⟩ := Result.bind_ok_iff.mp h
  obtain ⟨⟨verdict, extra⟩, hverdict, h⟩ := Result.bind_ok_iff.mp h
  obtain rfl := Except.ok.inj h
  refine ⟨ops, a, added, edits, modifications, extra, okOr_eq_ok.mp hops, hsets, hadds, hdeletes,
    hresolved, fun m hm => Result.mapM_ok_mem hframes hm, hverdict, rfl⟩

/-- The verdict adds a quarantine at most. -/
theorem verdict_extra {action : Str} {response : Json} {stage : Stage} {v : Verdict}
    {extra : List Modification} (h : verdict action response stage = .ok (v, extra)) :
    ∀ m ∈ extra, m = .quarantine "MTA Hooks policy" := by
  have hnil {v' : Verdict} (h : (Except.ok (v', []) : Result (Verdict × List Modification)) =
      .ok (v, extra)) : ∀ m ∈ extra, m = .quarantine "MTA Hooks policy" := by
    obtain ⟨-, rfl⟩ := Prod.mk.inj (Except.ok.inj h)
    exact fun _ hm => nomatch hm
  unfold verdict at h
  rcases Result.ite_ok h with ⟨-, h⟩ | ⟨-, h⟩
  · exact hnil h
  rcases Result.ite_ok h with ⟨-, h⟩ | ⟨-, h⟩
  · obtain ⟨_, -, h⟩ := Result.bind_ok_iff.mp h
    obtain ⟨_, -, h⟩ := Result.bind_ok_iff.mp h
    obtain ⟨_, -, h⟩ := Result.bind_ok_iff.mp h
    obtain ⟨_, -, h⟩ := Result.bind_ok_iff.mp h
    exact hnil h
  rcases Result.ite_ok h with ⟨-, h⟩ | ⟨-, h⟩
  · exact hnil h
  rcases Result.ite_ok h with ⟨-, h⟩ | ⟨-, h⟩
  · obtain ⟨-, rfl⟩ := Prod.mk.inj (Except.ok.inj h)
    exact fun m hm => List.mem_singleton.mp hm
  rcases Result.ite_ok h with ⟨-, h⟩ | ⟨-, h⟩
  · exact hnil h
  · exact nomatch h

end Hooks

end MtaHooks
