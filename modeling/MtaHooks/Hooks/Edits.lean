import MtaHooks.Hooks.Request
import MtaHooks.Lib.SlotList
import Mathlib.Data.List.Sort

namespace MtaHooks

open ListEdits

/-!
# Message edits of a hook response

The operations of a data-stage response and the `Edits` they accumulate in.  An operation
names headers and recipients by position: `set` in the original message, `add` and `delete`
in the list as it stands, which a `SlotList` follows.  `Edits.modifications` turns the edits
into milter modifications once every operation is validated.
-/

namespace Hooks

/-! ### Operations -/

/-- A `set` operation. -/
structure SetOp where
  path : Str
  value : Json

/-- An `add` operation. -/
structure AddOp where
  path : Str
  value : Json
  index : Option UInt32

/-- A `delete` operation. -/
structure DeleteOp where
  path : Str

/-- The operations of a response. -/
structure Operations where
  set : Option (List SetOp)
  add : Option (List AddOp)
  delete : Option (List DeleteOp)

/-- A header field of a response. -/
structure Header where
  name : Str
  value : Str
  deriving DecidableEq

/-- An envelope address of a response. -/
structure Address where
  address : Option Str
  parameters : List (Str × Json)

namespace SetOp

/-- A `set` operation from its JSON. -/
def fromValue (v : Json) : Option SetOp := do
  match ← Json.structFields ["path", "value"] 0 v with
  | [some (.string path), some value] => some ⟨path, value⟩
  | _ => none

end SetOp

namespace AddOp

/-- An `add` operation from its JSON. -/
def fromValue (v : Json) : Option AddOp := do
  match ← Json.structFields ["path", "value", "index"] 0 v with
  | [some (.string path), some value, index] => do
    let index ← Json.optional Json.asU32 index
    some ⟨path, value, index⟩
  | _ => none

end AddOp

namespace DeleteOp

/-- A `delete` operation from its JSON. -/
def fromValue (v : Json) : Option DeleteOp := do
  match ← Json.structFields ["path"] 0 v with
  | [some (.string path)] => some ⟨path⟩
  | _ => none

end DeleteOp

namespace Operations

/-- The operations of a response from their JSON. -/
def fromValue (v : Json) : Option Operations := do
  match ← Json.structFields ["set", "add", "delete"] 0 v with
  | [set, add, delete] => do
    let set ← Json.optional (Json.vec SetOp.fromValue) set
    let add ← Json.optional (Json.vec AddOp.fromValue) add
    let delete ← Json.optional (Json.vec DeleteOp.fromValue) delete
    some ⟨set, add, delete⟩
  | _ => none

end Operations

namespace Header

/-- A header from its JSON. -/
def fromValue (v : Json) : Option Header := do
  match ← Json.structFields ["name", "value"] 0 v with
  | [some (.string name), some (.string value)] => some ⟨name, value⟩
  | _ => none

end Header

namespace Address

/-- The parameters may be left out. -/
def fromValue (v : Json) : Option Address := do
  match ← Json.structFields ["address", "parameters"] 1 v with
  | [address, parameters] => do
    let address ← Json.optional Json.asStr address
    let parameters ← (parameters.map Json.asMap).getD (some [])
    some ⟨address, parameters⟩
  | _ => none

/-- The address in angle brackets. -/
def bracketed (a : Str) : Str :=
  if startsWith "<" a && endsWith ">" a then a else [byte '<'] ++ a ++ [byte '>']

/-- One ESMTP parameter, `KEY` or `KEY=VALUE`. -/
def parameterText (p : Str × Json) : Result Str := do
  let value ← match p.2 with
    | .string s => .ok s
    | .null => .ok []
    | _ => .error (.invalid "ESMTP parameter value")
  rejectIf (p.1 = [] ∨ byte '=' ∈ p.1 ∨ byte ' ' ∈ p.1 ∨ byte ' ' ∈ value)
    (.invalid "ESMTP parameter")
  return if value = [] then p.1 else p.1 ++ [byte '='] ++ value

/-- The address of the envelope form. -/
def milterAddress (a : Address) (allowNull : Bool) : Result Str :=
  match a.address.filter (· ≠ []) with
  | some s => .ok (bracketed s)
  | none => if allowNull then .ok "<>" else .error (.invalid "recipient address")

/-- Milter envelope form: angle brackets, then ESMTP parameters as `KEY=VALUE`. -/
def milter (a : Address) (allowNull : Bool) : Result (Str × Option Str) := do
  let address ← a.milterAddress allowNull
  let parameters ← a.parameters.mapM parameterText
  return (address, if parameters = [] then none else some ([byte ' '].intercalate parameters))

end Address

/-- Array element path such as `/message/headers/3`: the index and what follows it. -/
def arrayIndex (path array : Str) : Option (ℕ × Str) := do
  let rest ← (stripPrefix array path).bind (stripPrefix "/")
  let (index, tail) := (splitOnce (byte '/') rest).getD (rest, [])
  -- Nine digits always fit a `usize`.
  if index = [] ∨ 9 < index.length ∨ ¬ index.all isAsciiDigit then none
  else some (digitsValue index, tail)

/-! ### Edits -/

/-- Message edits accumulated from a data-stage response. -/
structure Edits where
  headerChanges : List (ℕ × Str) := []
  headers : SlotList Header
  envelopeFrom : Option Address := none
  recipients : SlotList Address

/-- Insert an element before an index, or append it. -/
def insertSlot {β : Type} (list : SlotList β) (index : Option UInt32) (b : β) (what : String) :
    Result (SlotList β) :=
  match index with
  | some index =>
    if index.toNat ≤ list.slots.length then .ok (list.insert index.toNat b)
    else .error (.invalid what)
  | none => .ok (list.insert list.slots.length b)

/-- Remove the element at an index. -/
def removeSlot {β : Type} (list : SlotList β) (index : ℕ) (what : String) :
    Result (SlotList β) :=
  if list.slots.length ≤ index then .error (.invalid what) else .ok (list.remove index)

namespace Edits

/-- No edits of a message. -/
def new (session : Session) : Edits where
  headers := .ofLength session.message.headers.length
  recipients := .ofLength session.message.recipients.length

/-- Nothing is edited. -/
def isEmpty (e : Edits) : Bool :=
  e.headerChanges.isEmpty && e.headers.deleted.isEmpty && e.headers.added.isEmpty &&
    e.envelopeFrom.isNone && e.recipients.deleted.isEmpty && e.recipients.added.isEmpty

/-- The new value of the header `name`, from the path below the header. -/
def newValue (name : Bytes) (tail : Str) (value : Json) : Result Str :=
  if tail = [] then do
    let header ← okOr (Header.fromValue value) (.invalid "header object")
    let name ← text name
    -- The milter protocol changes values only.
    rejectIf (¬ eqIgnoreAsciiCase header.name name) (.invalid "milter cannot rename a header")
    return header.value
  else if tail = ascii "value" then okOr value.asStr (.invalid "header value")
  else .error (.invalid "set outside supported update profile")

/-- Take a `set` operation. -/
def set (session : Session) (path : Str) (value : Json) (e : Edits) : Result Edits :=
  match arrayIndex path "/message/headers" with
  | some (index, tail) => do
    let (name, _) ← okOr session.message.headers[index]? (.invalid "header index")
    let newValue ← newValue name tail value
    return { e with headerChanges := e.headerChanges ++ [(index, newValue)] }
  | none =>
    if path = ascii "/envelope/from" then do
      let address ← okOr (Address.fromValue value) (.invalid "envelope address")
      return { e with envelopeFrom := some address }
    else .error (.invalid "set outside supported update profile")

/-- Take an `add` operation. -/
def add (session : Session) (add : AddOp) (e : Edits) : Result Edits :=
  if add.path = ascii "/message/headers" then do
    rejectIf (session.limits.headers ≤ e.headers.slots.length)
      (.limit "headers after modifications")
    let header ← okOr (Header.fromValue add.value) (.invalid "header object")
    let headers ← insertSlot e.headers add.index header "header insertion index"
    return { e with headers }
  else if add.path = ascii "/envelope/to" then do
    rejectIf (session.limits.recipients ≤ e.recipients.slots.length)
      (.limit "recipients after modifications")
    let address ← okOr (Address.fromValue add.value) (.invalid "envelope address")
    let recipients ← insertSlot e.recipients add.index address "recipient index"
    return { e with recipients }
  else .error (.invalid "add outside supported update profile")

/-- The index of an element to delete. -/
def deleteIndex (path array : Str) : Option ℕ :=
  match arrayIndex path array with
  | some (index, []) => some index
  | _ => none

/-- Take a `delete` operation. -/
def delete (path : Str) (e : Edits) : Result Edits :=
  match deleteIndex path "/message/headers", deleteIndex path "/envelope/to" with
  | some index, _ => do
    let headers ← removeSlot e.headers index "header index"
    return { e with headers }
  | none, some index => do
    let recipients ← removeSlot e.recipients index "recipient index"
    return { e with recipients }
  | none, none => .error (.invalid "delete outside supported update profile")

/-! ### Modifications -/

/-- The headers with the name of a header, ignoring case. -/
def sameName (name : Bytes) (header : Bytes × Bytes) : Bool := eqIgnoreAsciiCase header.1 name

/-- The name of a header and its occurrence among the headers of that name; the count wraps
    as the cast to `u32` does. -/
def occurrence (headers : List (Bytes × Bytes)) (index : ℕ) : Result (Str × UInt32) := do
  let header ← okOr headers[index]? (.panic "header index")
  let name ← text header.1
  let count := (headers.take index).countP (sameName name)
  return (name, UInt32.ofNat count + 1)

/-- The changes and deletes of headers by original position, the highest first; equal
    positions keep their order. -/
def headerEdits (e : Edits) : List (ℕ × Option Str) :=
  -- The sort is stable: a change comes before the delete of the same header.
  let changes := e.headerChanges.map fun (index, value) => (index, some value)
  let deletes := e.headers.deleted.map fun index => (index, none)
  (changes ++ deletes).insertionSort fun a b => b.1 ≤ a.1

/-- Changes and deletes as modifications, each header once. -/
def changes (headers : List (Bytes × Bytes)) :
    List (ℕ × Option Str) → List ℕ → Result (List Modification)
  | [], _ => .ok []
  | (index, value) :: edits, seen => do
    -- A second operation on one header is refused before its occurrence is computed.
    rejectIf (index ∈ seen) (.invalid "conflicting header operations")
    let (name, occurrence) ← occurrence headers index
    let modifications ← changes headers edits (index :: seen)
    return .changeHeader occurrence name (value.getD []) :: modifications

/-- The modification that inserts an added header at its final position. -/
def insertion (length position : ℕ) (header : Header) : Modification :=
  if position = length - 1 then .addHeader header.name header.value
  else .insertHeader (UInt32.ofNat position) header.name header.value

/-- Added headers as modifications, by final position; each is taken from the table. -/
def inserts (length : ℕ) :
    List (Slot × ℕ) → List (Option Header) → Result (List Modification)
  | [], _ => .ok []
  | (.original _, _) :: slots, added => inserts length slots added
  | (.added i, position) :: slots, added => do
    let header ← okOr added[i]?.join (.panic "added header is emitted once")
    let modifications ← inserts length slots (added.set i none)
    return insertion length position header :: modifications

/-- The new sender. -/
def senderChange : Option Address → Result (List Modification)
  | none => .ok []
  | some sender => do
    let (address, parameters) ← sender.milter true
    return [.changeFrom address parameters]

/-- The deletion of an original recipient. -/
def recipientDelete (session : Session) (index : ℕ) : Result Modification := do
  let recipient ← okOr session.message.recipients[index]? (.panic "recipient index")
  let address ← text recipient.address
  return .deleteRecipient address

/-- The addition of a recipient. -/
def recipientAdd (added : Address) : Result Modification := do
  let (address, parameters) ← added.milter false
  return .addRecipient address parameters

/-- The modifications of the edits, in an order in which their indexes stay valid as the MTA
    applies them. -/
def modifications (session : Session) (e : Edits) : Result (List Modification) := do
  let changed ← changes session.message.headers e.headerEdits []
  let inserted ← inserts e.headers.slots.length e.headers.slots.zipIdx e.headers.added
  let sender ← senderChange e.envelopeFrom
  let deletes ← e.recipients.deleted.mapM (recipientDelete session)
  -- In order of addition, wherever the recipient was inserted.
  let adds ← (e.recipients.added.filterMap id).mapM recipientAdd
  return changed ++ inserted ++ sender ++ deletes ++ adds

end Edits

end Hooks

end MtaHooks
