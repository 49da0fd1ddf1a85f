import MtaHooks.Protocol.Wire

namespace MtaHooks

/-!
# Modifications and their frames

A `Modification` is one edit of the message or the envelope.  `payloadBytes` estimates the
payload it will take on the wire, `frames` validates and encodes it, and `capability` is
the action bit it needs.

The estimate is what a decision is charged before anything is encoded, so it is a function of its
own, beside the encoder that the source has.
-/

/-- An edit the filter may ask of the MTA. -/
inductive Modification
  | addHeader (name value : Str)
  /-- Absolute, zero-based insertion index. -/
  | insertHeader (index : UInt32) (name value : Str)
  /-- One-based occurrence among headers with this name.  Empty value deletes. -/
  | changeHeader (occurrence : UInt32) (name value : Str)
  | replaceBody (body : Bytes)
  /-- The value includes its exact whitespace after the colon. -/
  | insertRawHeader (index : UInt32) (name value : Str)
  | changeFrom (address : Str) (parameters : Option Str)
  | addRecipient (address : Str) (parameters : Option Str)
  | deleteRecipient (address : Str)
  | quarantine (reason : Str)
  deriving DecidableEq

/-! ### Validation of texts -/

/-- The loop of `header_value`: a CR has to start a CRLF, a line end has to be followed by
    space or tab, and no other control byte may occur. -/
def headerValueLoop : Bytes → Result Unit
  | [] => .ok ()
  | c :: rest =>
    if c = byte '\r' then
      match rest with
      | lf :: fold :: rest' =>
        if lf ≠ byte '\n' then .error (.invalid "header folding")
        else if fold = byte ' ' ∨ fold = byte '\t' then headerValueLoop (fold :: rest')
        else .error (.invalid "header folding")
      | _ => .error (.invalid "header folding")
    else if c = byte '\n' then
      match rest with
      | fold :: rest' =>
        if fold = byte ' ' ∨ fold = byte '\t' then headerValueLoop (fold :: rest')
        else .error (.invalid "header folding")
      | [] => .error (.invalid "header folding")
    else if (c < 32 ∧ c ≠ byte '\t') ∨ c = 127 then
      .error (.invalid "header control character")
    else headerValueLoop rest

/-- Permit folding, but never a new field or a bare CR. -/
def headerValue (value : Str) : Result Unit := headerValueLoop value

/-- No NUL and no line end. -/
def clean (value : Str) : Result Unit :=
  if value.any fun c => c == 0 || c == byte '\r' || c == byte '\n' then
    .error (.invalid "control character in response")
  else .ok ()

/-- A byte allowed in a header name. -/
def isHeaderNameByte (c : UInt8) : Bool := 33 ≤ c && c ≤ 126 && c != byte ':'

/-- A non-empty header name of allowed bytes. -/
def headerName (name : Str) : Result Unit :=
  if name.isEmpty || !name.all isHeaderNameByte then .error (.invalid "header name")
  else .ok ()

namespace Modification

/-- The action bit a modification needs. -/
def capability : Modification → UInt32
  | .addHeader .. | .insertHeader .. | .insertRawHeader .. => addHeaders
  | .changeHeader .. => changeHeaders
  | .replaceBody _ => changeBody
  | .changeFrom .. => MtaHooks.changeFrom
  | .addRecipient _ (some _) => addRecipientPar
  | .addRecipient _ none => MtaHooks.addRecipient
  | .deleteRecipient _ => MtaHooks.deleteRecipient
  | .quarantine _ => MtaHooks.quarantine

/-- The four summands of the size estimate. -/
def payloadParts (leadingSpace : Bool) : Modification → List ℕ
  -- Terminators and the index are counted; a chunk's own command byte is not.
  | .replaceBody body => [body.length, 0, 0, 0]
  | .insertRawHeader _ name value => [name.length, value.length, 6, 0]
  | .addHeader name value =>
    [name.length, value.length, 2 + (leadingSpace && !value.isEmpty).toNat, 0]
  | .insertHeader _ name value | .changeHeader _ name value =>
    [name.length, value.length, 2 + (leadingSpace && !value.isEmpty).toNat, 4]
  | .changeFrom address parameters | .addRecipient address parameters =>
    [address.length, (parameters.map List.length).getD 0, 1 + parameters.isSome.toNat, 0]
  | .deleteRecipient value | .quarantine value => [value.length, 1, 0, 0]

/-- Wire payload size, checked before serializing a decision. -/
def payloadBytes (leadingSpace : Bool) (m : Modification) : Result ℕ :=
  (m.payloadParts leadingSpace).foldlM
    (fun n part => okOr (checkedAdd n part) (.limit "output")) 0

/-- The value of a structured header on the wire: a negotiated leading space is put in
    front of a non-empty value. -/
def wireValue (leadingSpace : Bool) (value : Str) : Str :=
  if leadingSpace && !value.isEmpty then byte ' ' :: value else value

/-- The value of a raw header on the wire: without the negotiation the one leading space is
    implied. -/
def rawWireValue (leadingSpace : Bool) (value : Str) : Result Str :=
  if leadingSpace then .ok value
  else okOr (stripPrefix " " value)
    (.invalid "raw header whitespace requires leading-space negotiation")

/-- Name and value after an optional index. -/
def headerFrame (command : UInt8) (index : Option UInt32) (name value : Str) :
    Result (List Frame) := do
  let f ← stringFrame command [name, value]
  match index with
  | some index => return [⟨command, toBeBytes index ++ f.payload⟩]
  | none => return [f]

/-- Address and optional parameters. -/
def envelopeFrame (command : UInt8) (address : Str) (parameters : Option Str) :
    Result (List Frame) := do
  clean address
  rejectIf (address = []) (.invalid "empty address")
  match parameters with
  | some p => do
    clean p
    let f ← stringFrame command [address, p]
    return [f]
  | none => do
    let f ← stringFrame command [address]
    return [f]

/-- Consecutive pieces of at most `size` bytes. -/
def chunks (size fuel : ℕ) (body : Bytes) : List Bytes :=
  match fuel, body with
  | _, [] => []
  | 0, _ => []
  | fuel + 1, body => body.take size :: chunks size fuel (body.drop size)

/-- The frames of a modification, or the reason why it cannot be encoded. -/
def frames (leadingSpace : Bool) : Modification → Result (List Frame)
  | .insertRawHeader index name value => do
    headerName name
    headerValue value
    let value ← rawWireValue leadingSpace value
    headerFrame (byte 'i') (some index) name value
  | .replaceBody body =>
    -- An empty body still has to replace the old one.
    if body.isEmpty then .ok [Frame.empty (byte 'b')]
    else .ok ((chunks bodyChunk body.length body).map fun chunk => ⟨byte 'b', chunk⟩)
  | .addHeader name value => do
    headerName name
    headerValue value
    headerFrame (byte 'h') none name (wireValue leadingSpace value)
  | .insertHeader index name value => do
    headerName name
    headerValue value
    headerFrame (byte 'i') (some index) name (wireValue leadingSpace value)
  | .changeHeader occurrence name value => do
    headerName name
    headerValue value
    -- Checked after name and value, as in the source.
    rejectIf (occurrence = 0) (.invalid "header occurrence is one-based")
    headerFrame (byte 'm') (some occurrence) name (wireValue leadingSpace value)
  | .changeFrom address parameters => envelopeFrame (byte 'e') address parameters
  | .addRecipient address parameters =>
    -- The command with parameters is another one.
    envelopeFrame (if parameters.isSome then byte '2' else byte '+') address parameters
  | .deleteRecipient s => do
    clean s
    let f ← stringFrame (byte '-') [s]
    return [f]
  | .quarantine s => do
    clean s
    let f ← stringFrame (byte 'q') [s]
    return [f]

/-! ### The commands of the frames -/

/-- Name and value, behind the index if there is one. -/
theorem stringFrame_of_headerFrame {c : UInt8} {index : Option UInt32} {name value : Str}
    {fs : List Frame} (h : headerFrame c index name value = .ok fs) :
    ∃ f, stringFrame c [name, value] = .ok f ∧
      fs = [⟨c, (index.map toBeBytes).getD [] ++ f.payload⟩] := by
  obtain ⟨f, hf, h⟩ := Result.bind_ok_iff.mp h
  refine ⟨f, hf, ?_⟩
  cases index with
  | none =>
    obtain rfl := Except.ok.inj h
    rw [← stringFrame_command hf]
    rfl
  | some index => exact (Except.ok.inj h).symm

/-- The address, and the parameters if there are any. -/
theorem stringFrame_of_envelopeFrame {c : UInt8} {address : Str} {parameters : Option Str}
    {fs : List Frame} (h : envelopeFrame c address parameters = .ok fs) :
    ∃ f, stringFrame c (address :: parameters.toList) = .ok f ∧ fs = [f] := by
  obtain ⟨_, -, h⟩ := Result.bind_ok_iff.mp h
  obtain ⟨_, -, h⟩ := Result.bind_ok_iff.mp h
  cases parameters with
  | none =>
    obtain ⟨f, hf, h⟩ := Result.bind_ok_iff.mp h
    exact ⟨f, hf, (Except.ok.inj h).symm⟩
  | some p =>
    obtain ⟨_, -, h⟩ := Result.bind_ok_iff.mp h
    obtain ⟨f, hf, h⟩ := Result.bind_ok_iff.mp h
    exact ⟨f, hf, (Except.ok.inj h).symm⟩

/-- One text. -/
theorem stringFrame_of_text {c : UInt8} {s : Str} {fs : List Frame}
    (h : (do clean s; let f ← stringFrame c [s]; return [f]) = (.ok fs : Result (List Frame))) :
    ∃ f, stringFrame c [s] = .ok f ∧ fs = [f] := by
  obtain ⟨_, -, h⟩ := Result.bind_ok_iff.mp h
  obtain ⟨f, hf, h⟩ := Result.bind_ok_iff.mp h
  exact ⟨f, hf, (Except.ok.inj h).symm⟩

/-- The frames of a header have its command. -/
theorem headerFrame_command {c : UInt8} {index : Option UInt32} {name value : Str}
    {fs : List Frame} (h : headerFrame c index name value = .ok fs) : ∀ f ∈ fs, f.command = c := by
  obtain ⟨f, -, rfl⟩ := stringFrame_of_headerFrame h
  exact fun g hg => by rw [List.mem_singleton.mp hg]

/-- The frames of an address have its command. -/
theorem envelopeFrame_command {c : UInt8} {address : Str} {parameters : Option Str}
    {fs : List Frame} (h : envelopeFrame c address parameters = .ok fs) :
    ∀ f ∈ fs, f.command = c := by
  obtain ⟨f, hf, rfl⟩ := stringFrame_of_envelopeFrame h
  exact fun g hg => by rw [List.mem_singleton.mp hg, stringFrame_command hf]

/-- The frames of a text have its command. -/
theorem text_command {c : UInt8} {s : Str} {fs : List Frame}
    (h : (do clean s; let f ← stringFrame c [s]; return [f]) = (.ok fs : Result (List Frame))) :
    ∀ f ∈ fs, f.command = c := by
  obtain ⟨f, hf, rfl⟩ := stringFrame_of_text h
  exact fun g hg => by rw [List.mem_singleton.mp hg, stringFrame_command hf]

/-- The command of the frames of a modification. -/
def opcode : Modification → UInt8
  | .addHeader .. => byte 'h'
  | .insertHeader .. | .insertRawHeader .. => byte 'i'
  | .changeHeader .. => byte 'm'
  | .replaceBody _ => byte 'b'
  | .changeFrom .. => byte 'e'
  | .addRecipient _ (some _) => byte '2'
  | .addRecipient _ none => byte '+'
  | .deleteRecipient _ => byte '-'
  | .quarantine _ => byte 'q'

/-- All frames of a modification carry its command. -/
theorem frames_command {ls : Bool} {m : Modification} {fs : List Frame}
    (h : m.frames ls = .ok fs) : ∀ f ∈ fs, f.command = m.opcode := by
  cases m with
  | insertRawHeader index name value =>
    obtain ⟨_, -, h⟩ := Result.bind_ok_iff.mp h
    obtain ⟨_, -, h⟩ := Result.bind_ok_iff.mp h
    obtain ⟨_, -, h⟩ := Result.bind_ok_iff.mp h
    exact headerFrame_command h
  | replaceBody body =>
    rcases Result.ite_ok h with ⟨-, h⟩ | ⟨-, h⟩
    · obtain rfl := Except.ok.inj h
      exact fun f hf => by rw [List.mem_singleton.mp hf]; rfl
    · obtain rfl := Except.ok.inj h
      intro f hf
      obtain ⟨chunk, -, rfl⟩ := List.mem_map.mp hf
      rfl
  | addHeader name value =>
    obtain ⟨_, -, h⟩ := Result.bind_ok_iff.mp h
    obtain ⟨_, -, h⟩ := Result.bind_ok_iff.mp h
    exact headerFrame_command h
  | insertHeader index name value =>
    obtain ⟨_, -, h⟩ := Result.bind_ok_iff.mp h
    obtain ⟨_, -, h⟩ := Result.bind_ok_iff.mp h
    exact headerFrame_command h
  | changeHeader occurrence name value =>
    obtain ⟨_, -, h⟩ := Result.bind_ok_iff.mp h
    obtain ⟨_, -, h⟩ := Result.bind_ok_iff.mp h
    obtain ⟨_, -, h⟩ := Result.bind_ok_iff.mp h
    exact headerFrame_command h
  | changeFrom address parameters => exact envelopeFrame_command h
  | addRecipient address parameters =>
    have hc : ∀ f ∈ fs, f.command = if parameters.isSome then byte '2' else byte '+' :=
      envelopeFrame_command h
    cases parameters <;> exact hc
  | deleteRecipient s => exact text_command h
  | quarantine s => exact text_command h

end Modification

end MtaHooks
