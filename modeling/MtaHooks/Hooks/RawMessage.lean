import MtaHooks.Hooks.Edits

namespace MtaHooks

/-!
# Replacement of the raw message

`rawReplacement` reads a replacement message and turns it into edits of the original one.
The reader keeps positions in the raw bytes, as the source keeps slices: a continuation line
moves the end of the last value.  An ordered subsequence of identical original fields is left
untouched; the other originals are deleted, the last first, and the other fields inserted at
their final position.
-/

namespace Hooks

/-! ### Reading -/

/-- The bytes from `start` up to `stop`. -/
def slice (raw : Bytes) (start stop : ℕ) : Bytes := (raw.take stop).drop start

/-- A field of the raw message: its name and the place of its value. -/
structure RawField where
  name : Bytes
  start : ℕ
  stop : ℕ
  deriving DecidableEq

/-- Name and value of a field. -/
def RawField.field (raw : Bytes) (f : RawField) : Bytes × Bytes :=
  (f.name, slice raw f.start f.stop)

/-- A line that continues the field before it. -/
def isContinuation (line : Bytes) : Bool :=
  line.head? = some (byte ' ') || line.head? = some (byte '\t')

/-- The end of the content of a line that ends at `stop`: a CR before the LF is no content. -/
def contentEnd (raw : Bytes) (offset stop : ℕ) : ℕ :=
  if offset < stop ∧ raw[stop - 1]? = some (byte '\r') then stop - 1 else stop

/-- The line at `offset`: the end of its content and the position of its LF. -/
def lineAt (raw : Bytes) (offset : ℕ) : Result (ℕ × ℕ) := do
  let n ← okOr ((raw.drop offset).findIdx? (· = byte '\n')) (.invalid "raw message headers")
  return (contentEnd raw offset (offset + n), offset + n)

/-- Move the end of the last value. -/
def extendLast (fields : List RawField) (stop : ℕ) : Result (List RawField) :=
  match fields.getLast? with
  | some last => .ok (fields.dropLast ++ [{ last with stop }])
  | none => .error (.invalid "orphan continuation")

/-- The field that starts at `offset`. -/
def newField (limits : Limits) (raw : Bytes) (offset stop : ℕ) (fields : List RawField) :
    Result (List RawField) := do
  let line := slice raw offset stop
  let colon ← okOr (line.findIdx? (· = byte ':')) (.invalid "raw header")
  let name := line.take colon
  rejectIf (name = [] ∨ ¬ name.all isHeaderNameByte) (.invalid "raw header name")
  rejectIf (limits.headers ≤ fields.length) (.limit "replacement headers")
  return fields ++ [⟨name, offset + colon + 1, stop⟩]

/-- The fields after a line that is not empty. -/
def addLine (limits : Limits) (raw : Bytes) (offset stop : ℕ) (fields : List RawField) :
    Result (List RawField) :=
  -- A folded line goes to the field before it, line end included.
  if isContinuation (slice raw offset stop) then extendLast fields stop
  else newField limits raw offset stop fields

/-- Read fields from `offset` to the empty line: the fields and the start of the body.  Every
    line takes at least its LF, so the length of the message is fuel enough. -/
def readFields (limits : Limits) (raw : Bytes) :
    ℕ → ℕ → List RawField → Result (List RawField × ℕ)
  | 0, _, _ => .error (.panic "fuel")
  | fuel + 1, offset, fields => do
    let (content, stop) ← lineAt raw offset
    if slice raw offset content = [] then return (fields, stop + 1)
    else do
      let fields ← addLine limits raw offset content fields
      readFields limits raw fuel (stop + 1) fields

/-! ### Matching -/

/-- The original fields equal to a field, in order. -/
def candidates (original : List (Bytes × Bytes)) (field : Bytes × Bytes) : List ℕ :=
  (List.range original.length).filter fun i => original[i]? = some field

/-- The milter-visible form of a raw value, if it has one. -/
def visibleValue (leadingSpace : Bool) (value : Bytes) : Option Bytes :=
  if leadingSpace || Session.startsWithLineEnd value then some value else stripPrefix " " value

/-- The next original field, from `cursor` on, that is the given raw field. -/
def matched (leadingSpace : Bool) (original : List (Bytes × Bytes)) (cursor : ℕ)
    (field : Bytes × Bytes) : Option ℕ :=
  (visibleValue leadingSpace field.2).bind fun value =>
    ((candidates original (field.1, value)).dropWhile (· < cursor)).head?

/-- The original fields kept so far and the insertions. -/
structure Matching where
  retained : List Bool
  cursor : ℕ := 0
  inserted : List Modification := []

/-- Keep the original of a field or insert the field at its position. -/
def matchField (leadingSpace : Bool) (original : List (Bytes × Bytes)) (m : Matching)
    (x : (Bytes × Bytes) × ℕ) : Result Matching :=
  match matched leadingSpace original m.cursor x.1 with
  -- The cursor keeps the originals that stay in their order.
  | some index => .ok { m with retained := m.retained.set index true, cursor := index + 1 }
  | none => do
    let name ← text x.1.1
    let value ← text x.1.2
    return { m with
      inserted := m.inserted ++ [.insertRawHeader (UInt32.ofNat x.2) name value] }

/-- The occurrence of an original field among those of its name, ignoring case; the count
    wraps as a `u32` does. -/
def rawOccurrence (original : List (Bytes × Bytes)) (i : ℕ) (name : Bytes) : UInt32 :=
  UInt32.ofNat ((original.take (i + 1)).countP fun h =>
    toAsciiLowercase h.1 == toAsciiLowercase name)

/-- Delete an original field. -/
def rawDelete (original : List (Bytes × Bytes)) (i : ℕ) : Result Modification := do
  let header ← okOr original[i]? (.panic "header index")
  let name ← text header.1
  return .changeHeader (rawOccurrence original i header.1) name []

/-- The fields that were not kept, the last first. -/
def dropped (retained : List Bool) : List ℕ :=
  (List.range retained.length).reverse.filter fun i => retained[i]? = some false

/-- The header edits that turn the original fields into the given ones. -/
def fieldEdits (leadingSpace : Bool) (original fields : List (Bytes × Bytes)) :
    Result (List Modification) := do
  let m ← fields.zipIdx.foldlM (matchField leadingSpace original)
    { retained := List.replicate original.length false }
  let deletes ← (dropped m.retained).mapM (rawDelete original)
  return deletes ++ m.inserted

/-- The longest base64 text of a message within the limit. -/
def encodedLimit (limits : Limits) : ℕ :=
  min (limits.messageBytes + 2) usizeMax / 3 * 4 % (usizeMax + 1)

/-- The bytes of a raw message in base64, within the limit. -/
def decodeRaw (b64 : Base64) (limits : Limits) (value : Json) : Result Bytes := do
  let encoded ← okOr value.asStr (.invalid "raw message type")
  -- A bound on the text first, so that no oversized message is decoded.
  rejectIf (encodedLimit limits < encoded.length) (.limit "replacement message")
  let raw ← okOr (b64.decode encoded) (.invalid "raw message base64")
  rejectIf (limits.messageBytes < raw.length) (.limit "replacement message")
  return raw

/-- The edits that replace the milter-visible message. -/
def rawReplacement (b64 : Base64) (value : Json) (session : Session) :
    Result (List Modification) := do
  let raw ← decodeRaw b64 session.limits value
  let (fields, bodyStart) ← readFields session.limits raw (raw.length + 1) 0 []
  let edits ← fieldEdits session.leadingSpace session.message.headers
    (fields.map (RawField.field raw))
  -- An unchanged body is not sent again.
  let body := if raw.drop bodyStart ≠ session.message.body then
    [Modification.replaceBody (raw.drop bodyStart)] else []
  rejectIf (session.limits.modifications < (edits ++ body).length)
    (.limit "replacement modifications")
  return edits ++ body

end Hooks

end MtaHooks
