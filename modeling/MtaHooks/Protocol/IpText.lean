import MtaHooks.Protocol.Wire

namespace MtaHooks

/-!
# `std::net::IpAddr` from text

The textual IP addresses accepted by the standard library, as a recursive-descent parser
over the remaining bytes: `readIpv4` reads four decimal octets without leading zeros,
`readIpv6` up to eight hexadecimal groups with one `::` and an optional embedded IPv4
tail.  A parse is accepted only when it consumes the whole text.
-/

/-- An IP address: four octets or eight 16-bit groups. -/
inductive IpAddr
  | v4 (octets : List ℕ)
  | v6 (groups : List ℕ)
  deriving DecidableEq

/-- `IpAddr::is_ipv4`. -/
def IpAddr.isIpv4 : IpAddr → Bool
  | .v4 _ => true
  | .v6 _ => false

/-- The value of a digit in the given radix. -/
def toDigit (radix : ℕ) (c : UInt8) : Option ℕ :=
  let n := c.toNat
  let d :=
    if 48 ≤ n ∧ n ≤ 57 then some (n - 48)
    else if 97 ≤ n ∧ n ≤ 102 then some (n - 87)
    else if 65 ≤ n ∧ n ≤ 70 then some (n - 55)
    else none
  d.filter (· < radix)

/-- Digits at the head of the input: their value, their number and the rest. -/
def readDigits (radix : ℕ) (value count : ℕ) : Bytes → ℕ × ℕ × Bytes
  | [] => (value, count, [])
  | c :: rest =>
    match toDigit radix c with
    | some d => readDigits radix (value * radix + d) (count + 1) rest
    | none => (value, count, c :: rest)

/-- A number of at most `maxDigits` digits and at most `max`. -/
def readNumber (radix maxDigits max : ℕ) (allowZeroPrefix : Bool) (input : Bytes) :
    Option (ℕ × Bytes) :=
  let (value, count, rest) := readDigits radix 0 0 input
  if count = 0 ∨ maxDigits < count ∨ max < value then none
  else if ¬ allowZeroPrefix ∧ input.head? = some (byte '0') ∧ 1 < count then none
  else some (value, rest)

/-- One given byte. -/
def readGivenChar (c : UInt8) : Bytes → Option Bytes
  | [] => none
  | d :: rest => if d = c then some rest else none

/-- An item that is preceded by a separator unless it is the first one. -/
def readSeparator {α : Type} (sep : UInt8) (index : ℕ) (item : Bytes → Option (α × Bytes))
    (input : Bytes) : Option (α × Bytes) :=
  if index = 0 then item input else (readGivenChar sep input).bind item

/-- Four dot-separated decimal octets. -/
def readIpv4 (input : Bytes) : Option (List ℕ × Bytes) := do
  let octet := readNumber 10 3 255 false
  let (a, input) ← readSeparator (byte '.') 0 octet input
  let (b, input) ← readSeparator (byte '.') 1 octet input
  let (c, input) ← readSeparator (byte '.') 2 octet input
  let (d, input) ← readSeparator (byte '.') 3 octet input
  return ([a, b, c, d], input)

/-- Up to `room` more colon-separated groups after `index` of them; the flag tells whether
    the last two came from an embedded IPv4 address. -/
def readGroups (index : ℕ) : ℕ → Bytes → List ℕ × Bool × Bytes
  | 0, input => ([], false, input)
  | room + 1, input =>
    let embedded := if 0 < room then readSeparator (byte ':') index readIpv4 input else none
    match embedded with
    | some ([a, b, c, d], rest) => ([a * 256 + b, c * 256 + d], true, rest)
    | _ =>
      match readSeparator (byte ':') index (readNumber 16 4 65535 true) input with
      | some (g, rest) =>
        let (gs, ipv4, rest) := readGroups (index + 1) room rest
        (g :: gs, ipv4, rest)
      | none => ([], false, input)

/-- Eight groups, or fewer around one `::`. -/
def readIpv6 (input : Bytes) : Option (List ℕ × Bytes) :=
  let (front, ipv4, rest) := readGroups 0 8 input
  if front.length = 8 then some (front, rest)
  else if ipv4 then none
  else do
    let rest ← readGivenChar (byte ':') rest
    let rest ← readGivenChar (byte ':') rest
    let (back, _, rest) := readGroups 0 (7 - front.length) rest
    return (front ++ List.replicate (8 - front.length - back.length) 0 ++ back, rest)

/-- `str::parse::<IpAddr>`. -/
def parseIpAddr (text : Str) : Option IpAddr :=
  let parsed : Option (IpAddr × Bytes) :=
    match readIpv4 text with
    | some (octets, rest) => some (.v4 octets, rest)
    | none => (readIpv6 text).map fun (groups, rest) => (.v6 groups, rest)
  (parsed.filter fun (_, rest) => rest.isEmpty).map Prod.fst

-- The spellings exercised by the connection tests of the source.
example : parseIpAddr "192.0.2.1" = some (.v4 [192, 0, 2, 1]) := by decide +kernel
example : parseIpAddr "::1" = some (.v6 [0, 0, 0, 0, 0, 0, 0, 1]) := by decide +kernel

end MtaHooks
