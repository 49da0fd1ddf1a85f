import MtaHooks.Protocol.Wire
import Mathlib.Data.List.Nodup

namespace MtaHooks

/-!
# JSON values

`Json` is `serde_json::Value`; an object holds its entries in key order, each key once, as
the map of the crate does.  The second half is what `serde_json::from_value` makes of a
value for the derived `Deserialize` of a struct: an object with known fields only, or an
array with the fields in order.
-/

/-- A JSON number in the three forms the crate keeps. -/
inductive Number
  | pos (n : UInt64)
  | neg (n : Int)
  | float (bits : UInt64)
  deriving DecidableEq

/-- A JSON value. -/
inductive Json
  | null
  | bool (b : Bool)
  | number (n : Number)
  | string (s : Str)
  | array (items : List Json)
  | object (fields : List (Str × Json))

namespace Json

/-! ### Reading -/

/-- `Value::as_str`. -/
def asStr : Json → Option Str
  | .string s => some s
  | _ => none

/-- `Value::as_u64`. -/
def asU64 : Json → Option ℕ
  | .number (.pos n) => some n.toNat
  | _ => none

/-- `Value::is_null`. -/
def isNull : Json → Bool
  | .null => true
  | _ => false

/-- `Value::is_object`. -/
def isObject : Json → Bool
  | .object _ => true
  | _ => false

/-- `Value::get` with a key. -/
def get (v : Json) (key : Str) : Option Json :=
  match v with
  | .object fields => fields.lookup key
  | _ => none

/-! ### Building -/

/-- Insert an entry at its place in key order, replacing an entry of the same key. -/
def insertField (key : Str) (value : Json) : List (Str × Json) → List (Str × Json)
  | [] => [(key, value)]
  | (k, v) :: fields =>
    if key = k then (key, value) :: fields
    else if key < k then (key, value) :: (k, v) :: fields
    else (k, v) :: insertField key value fields

/-- `v[key] = value` of an object. -/
def set (v : Json) (key : Str) (value : Json) : Json :=
  match v with
  | .object fields => .object (insertField key value fields)
  | v => v

/-- An object with the given entries. -/
def ofFields (fields : List (Str × Json)) : Json :=
  .object (fields.foldl (fun fs f => insertField f.1 f.2 fs) [])

/-- A text or null. -/
def ofText (s : Option Str) : Json := (s.map .string).getD .null

/-- A number or null. -/
def ofU64 (n : Option ℕ) : Json := (n.map fun n => .number (.pos (UInt64.ofNat n))).getD .null

/-! ### Deserializing -/

/-- The fields of a struct by name; the last `defaults` fields may be missing in an array. -/
def structFields (names : List Str) (defaults : ℕ) : Json → Option (List (Option Json))
  | .object fields =>
    let keys := fields.map Prod.fst
    if (∀ k ∈ keys, k ∈ names) ∧ keys.Nodup then some (names.map fun n => fields.lookup n)
    else none
  | .array items =>
    if items.length ≤ names.length ∧ names.length ≤ items.length + defaults then
      some ((List.range names.length).map fun i => items[i]?)
    else none
  | _ => none

/-- An `Option` field: missing or null is none. -/
def optional {α : Type} (read : Json → Option α) : Option Json → Option (Option α)
  | none => some none
  | some .null => some none
  | some v => (read v).map some

/-- A `Vec` field. -/
def vec {α : Type} (read : Json → Option α) : Json → Option (List α)
  | .array items => items.mapM read
  | _ => none

/-- A `u32` field. -/
def asU32 (v : Json) : Option UInt32 :=
  v.asU64.bind fun n => if n < 2 ^ 32 then some (UInt32.ofNat n) else none

/-- A map field. -/
def asMap : Json → Option (List (Str × Json))
  | .object fields => some fields
  | _ => none

end Json

end MtaHooks
