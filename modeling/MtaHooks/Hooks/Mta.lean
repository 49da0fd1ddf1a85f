import MtaHooks.Hooks.Translate
import MtaHooks.Lib.StandardBase64

namespace MtaHooks

open ListEdits

/-!
# What the MTA does with a decision, and what the scanner asked for

Two abstract models of message editing, neither taken from the code.

* `Mta` — the effect of modifications on the message of the MTA, as the milter protocol
  defines them;
* `Scanner` — the operations of a response as list edits: a `set` replaces the value of an
  original header, an `add` inserts or appends, a `delete` removes the element at a position
  of the list as it then stands.
-/

/-! ### The MTA -/

namespace Mta

/-- Replace the value of a header; an empty value removes the header. -/
def changeValue (value : Bytes) (header : Bytes × Bytes) : Option (Bytes × Bytes) :=
  if value = [] then none else some (header.1, value)

/-- Insert at a zero-based position of the current list, at the end if it is shorter. -/
def insertAt {α : Type} (i : ℕ) (a : α) (l : List α) : List α := l.insertIdx (min i l.length) a

/-- The headers, in milter-visible form, after a modification. -/
def headers (leadingSpace : Bool) (l : List (Bytes × Bytes)) :
    Modification → List (Bytes × Bytes)
  | .changeHeader occurrence name value =>
    editOccurrence (fun h => eqIgnoreAsciiCase h.1 name) (changeValue value) occurrence.toNat l
  | .insertHeader index name value => insertAt index.toNat (name, value) l
  | .insertRawHeader index name value =>
    insertAt index.toNat (name, (Hooks.visibleValue leadingSpace value).getD value) l
  | .addHeader name value => l ++ [(name, value)]
  | _ => l

/-- The body after a modification. -/
def body (b : Bytes) : Modification → Bytes
  | .replaceBody body => body
  | _ => b

/-- The envelope recipients, by address, after a modification. -/
def recipients (l : List Bytes) : Modification → List Bytes
  | .addRecipient address _ => l ++ [address]
  | .deleteRecipient address => l.filter (· ≠ address)
  | _ => l

/-- The part of the mail that a modification edits. -/
inductive Part
  | headers
  | body
  | sender
  | recipients
  | quarantine
  deriving DecidableEq

/-- The part a modification is about. -/
def part : Modification → Part
  | .addHeader .. | .insertHeader .. | .insertRawHeader .. | .changeHeader .. => .headers
  | .replaceBody _ => .body
  | .changeFrom .. => .sender
  | .addRecipient .. | .deleteRecipient _ => .recipients
  | .quarantine _ => .quarantine

/-- Modifications of one part are none of another. -/
theorem part_ne {ms : List Modification} {p q : Part} (h : ∀ m ∈ ms, part m = p) (hne : p ≠ q) :
    ∀ m ∈ ms, part m ≠ q := fun m hm => h m hm ▸ hne

/-- A modification of another part leaves the headers alone. -/
theorem headers_of_part {ls : Bool} {m : Modification} (h : part m ≠ .headers)
    (l : List (Bytes × Bytes)) : headers ls l m = l := by
  cases m <;> first | rfl | exact absurd rfl h

/-- A modification of another part leaves the body alone. -/
theorem body_of_part {m : Modification} (h : part m ≠ .body) (b : Bytes) : body b m = b := by
  cases m <;> first | rfl | exact absurd rfl h

/-- A modification of another part leaves the recipients alone. -/
theorem recipients_of_part {m : Modification} (h : part m ≠ .recipients) (l : List Bytes) :
    recipients l m = l := by
  cases m <;> first | rfl | exact absurd rfl h

/-- Modifications that each change nothing change nothing together. -/
private theorem foldl_fixed {σ : Type} {apply : σ → Modification → σ} {ms : List Modification}
    (h : ∀ m ∈ ms, ∀ a, apply a m = a) (a : σ) : ms.foldl apply a = a := by
  induction ms with
  | nil => rfl
  | cons m ms ih =>
    rw [List.foldl_cons, h m List.mem_cons_self]
    exact ih fun m' hm => h m' (List.mem_cons_of_mem m hm)

/-- Modifications of other parts leave the headers alone. -/
theorem foldl_headers_of_part {ls : Bool} {ms : List Modification}
    (h : ∀ m ∈ ms, part m ≠ .headers) (l : List (Bytes × Bytes)) :
    ms.foldl (headers ls) l = l :=
  foldl_fixed (fun m hm => headers_of_part (h m hm)) l

/-- Modifications of other parts leave the body alone. -/
theorem foldl_body_of_part {ms : List Modification} (h : ∀ m ∈ ms, part m ≠ .body) (b : Bytes) :
    ms.foldl body b = b :=
  foldl_fixed (fun m hm => body_of_part (h m hm)) b

/-- Modifications of other parts leave the recipients alone. -/
theorem foldl_recipients_of_part {ms : List Modification}
    (h : ∀ m ∈ ms, part m ≠ .recipients) (l : List Bytes) : ms.foldl recipients l = l :=
  foldl_fixed (fun m hm => recipients_of_part (h m hm)) l

end Mta

/-! ### The scanner -/

namespace Scanner

open Hooks

variable {α : Type}

/-- The header a `set` replaces the value of, and the new value. -/
def headerSet (op : SetOp) : Option (ℕ × Str) :=
  match arrayIndex op.path "/message/headers" with
  | some (index, tail) =>
    if tail = [] then (Header.fromValue op.value).map (index, ·.value)
    else if tail = ascii "value" then op.value.asStr.map (index, ·)
    else none
  | none => none

/-- A header with a new value. -/
def withValue (value : Str) (header : Bytes × Bytes) : Bytes × Bytes := (header.1, value)

/-- The headers after a `set`. -/
def setHeader (l : List (Bytes × Bytes)) (op : SetOp) : List (Bytes × Bytes) :=
  match headerSet op with
  | some (index, value) => l.modify index (withValue value)
  | none => l

/-- An array of the message after an `add`; `value` reads the new element. -/
def addTo (array : Str) (value : Json → Option α) (l : List α) (op : AddOp) : List α :=
  if op.path = array then
    match value op.value with
    | some a => l.insertIdx ((op.index.map UInt32.toNat).getD l.length) a
    | none => l
  else l

/-- An array of the message after a `delete`. -/
def deleteFrom (array : Str) (l : List α) (op : DeleteOp) : List α :=
  match Edits.deleteIndex op.path array with
  | some index => l.eraseIdx index
  | none => l

/-- An array of the message after all adds and then all deletes of a response. -/
def editArray (array : Str) (value : Json → Option α) (ops : Operations) (l : List α) : List α :=
  ops.deletes.foldl (deleteFrom array) (ops.adds.foldl (addTo array value) l)

/-- A header of a response as a field of the message. -/
def field (h : Header) : Bytes × Bytes := (h.name, h.value)

/-- The headers the scanner asked for. -/
def headers (ops : Operations) (l : List (Bytes × Bytes)) : List (Bytes × Bytes) :=
  editArray "/message/headers" (fun v => (Header.fromValue v).map field) ops
    (ops.sets.foldl setHeader l)

/-- The address of an added recipient. -/
def recipientAddress (a : Address) : Bytes := Address.bracketed (a.address.getD [])

/-- The recipients the scanner left, by address. -/
def recipients (ops : Operations) (l : List Bytes) : List Bytes :=
  editArray "/envelope/to" (fun v => (Address.fromValue v).map recipientAddress) ops l

/-- The original recipients the scanner left, by position; an added one has none. -/
def survivors (ops : Operations) (n : ℕ) : List (Option ℕ) :=
  editArray "/envelope/to" (fun v => (Address.fromValue v).map fun _ => none) ops
    ((List.range n).map some)

end Scanner

/-! ### Sample responses -/

namespace Sample

open Hooks

/-- The standard base64 encoding. -/
def base64 : Base64 where
  encode := StandardBase64.encode
  decode := StandardBase64.decode
  decode_encode := StandardBase64.decode_encode

/-- A session at the end of a message with the given recipients and headers. -/
def atEnd (recipients : List String) (headers : List (String × String)) : Session :=
  received [.endMessage]
    ([offer, connect, mail] ++ recipients.map rcpt ++ [data] ++
      headers.map (fun h => header h.1 h.2) ++ [endHeaders, endMessage])

/-- A `set` operation of a response. -/
def setOp (path : String) (value : Json) : Json :=
  .ofFields [("path", .string path), ("value", value)]

/-- An `add` operation of a response, at an index. -/
def addOp (path : String) (index : UInt64) (value : Json) : Json :=
  .ofFields [("path", .string path), ("value", value), ("index", .number (.pos index))]

/-- A `delete` operation of a response. -/
def deleteOp (path : String) : Json := .ofFields [("path", .string path)]

/-- A header object. -/
def headerObject (name value : String) : Json :=
  .ofFields [("name", .string name), ("value", .string value)]

/-- A response with the given operations. -/
def response (set add delete : List Json) : Json :=
  .ofFields [("set", .array set), ("add", .array add), ("delete", .array delete)]

end Sample

end MtaHooks
