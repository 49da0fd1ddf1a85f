import MtaHooks.Protocol.IpText

namespace MtaHooks

/-!
# Decoding MTA commands

`Command.decode` reads one frame of the MTA.  Each opcode with its own field grammar has a
decoder of its own (`decodeNegotiate`, `decodeConnect`, …); a frame outside the grammar is
refused with the source's text.

The decoders return the value of the source's `Command`, or the first of its errors in the order
in which the source looks for them.
-/

/-- The client of an SMTP connection. -/
structure Connection where
  hostname : Bytes
  family : UInt8
  port : Option UInt16
  address : Option Bytes
  deriving DecidableEq

/-- A command of the MTA. -/
inductive Command
  | negotiate (options : Options)
  | connect (info : Connection)
  | macros (stage : UInt8) (values : List (Bytes × Bytes))
  | helo (helo : Bytes)
  | mail (fields : List Bytes)
  | recipient (fields : List Bytes)
  | data
  | header (name value : Bytes)
  | endHeaders
  | body (chunk : Bytes)
  | endMessage
  | abort
  | quit
  | quitNewConnection
  | unknown (text : Bytes)
  deriving DecidableEq

namespace Command

/-- Three big-endian words. -/
def decodeNegotiate (p : Bytes) : Result Command :=
  match p with
  | [a, b, c, d, e, f, g, h, i, j, k, l] =>
    .ok (.negotiate ⟨fromBeBytes a b c d, fromBeBytes e f g h, fromBeBytes i j k l⟩)
  | _ => .error (.invalid "negotiation length")

/-- The IP address a client address spells, after an optional `IPv6:` and brackets. -/
def parseClientIp (address : Bytes) : Result IpAddr :=
  if isUtf8 address then
    let text := (stripPrefix "IPv6:" address).getD address
    let text := ((stripPrefix "[" text).bind (stripSuffix "]")).getD text
    okOr (parseIpAddr text) (.invalid "IP address")
  else .error (.invalid "IP encoding")

/-- The address has to spell an IP of families `4` and `6`. -/
def checkClientIp (family : UInt8) (address : Bytes) : Result Unit :=
  if family = byte 'L' then .ok ()
  else do
    let ip ← parseClientIp address
    if (family == byte '4') = ip.isIpv4 then .ok () else .error (.invalid "IP family")

/-- Port and address of a client in family `4`, `6` or `L`. -/
def decodeAddress (family : UInt8) (tail : Bytes) : Result (Option UInt16 × Option Bytes) :=
  match tail with
  -- Two bytes of port, and an address of at least its terminator.
  | hi :: lo :: x :: rest => do
    let fields ← strings (x :: rest)
    match fields with
    | [address] =>
      checkClientIp family address
      return (some (hi.toUInt16 <<< 8 ||| lo.toUInt16), some address)
    | _ => .error (.invalid "connect address count")
  | _ => .error (.invalid "connect address")

/-- The port and address a family calls for. -/
def decodeFamily (family : UInt8) (tail : Bytes) : Result (Option UInt16 × Option Bytes) :=
  if family = byte 'U' ∧ tail = [] then .ok (none, none)
  else if family = byte '4' ∨ family = byte '6' ∨ family = byte 'L' then
    decodeAddress family tail
  else .error (.invalid "connect family or trailing bytes")

/-- Hostname, family, port and address. -/
def decodeConnect (p : Bytes) : Result Command := do
  -- The hostname may be empty, and the family follows its terminator.
  let stop ← okOr (p.findIdx? (· == 0)) (.invalid "connect hostname")
  let family ← okOr p[stop + 1]? (.invalid "connect family")
  let (port, address) ← decodeFamily family (p.drop (stop + 2))
  return .connect ⟨p.take stop, family, port, address⟩

/-- The classes a macro batch may be defined for. -/
def macroStages : Bytes := "CHMRTUNELB"

/-- Names and values in turn. -/
def macroPairs : List Bytes → Result (List (Bytes × Bytes))
  | name :: value :: rest =>
    if name = [] then .error (.invalid "empty macro name")
    else do
      let pairs ← macroPairs rest
      return (name, value) :: pairs
  | _ => .ok []

/-- A class letter and its name-value pairs. -/
def decodeMacro : Bytes → Result Command
  | [] => .error (.invalid "macro stage")
  | stage :: rest => do
    rejectIf (stage ∉ macroStages) (.invalid "macro stage")
    let fields ← strings rest
    -- Counted before any name is looked at, so an odd count is the first error.
    rejectIf (fields.length % 2 ≠ 0) (.invalid "macro pair")
    let values ← macroPairs fields
    return .macros stage values

/-- Exactly one string. -/
def decodeString (make : Bytes → Command) (p : Bytes) : Result Command := do
  let fields ← strings p
  match fields with
  | [s] => .ok (make s)
  | _ => .error (.invalid "string count")

/-- A non-empty address and its parameters. -/
def decodeEnvelope (make : List Bytes → Command) (p : Bytes) : Result Command := do
  let fields ← strings p
  match fields with
  -- Parameters may be empty, the address may not.
  | (_ :: _) :: _ => .ok (make fields)
  | _ => .error (.invalid "empty envelope")

/-- A non-empty header name and its value. -/
def decodeHeader (p : Bytes) : Result Command := do
  let fields ← strings p
  match fields with
  | [name, value] =>
    if name = [] then .error (.invalid "header fields") else .ok (.header name value)
  | _ => .error (.invalid "header fields")

/-- No payload. -/
def decodeBare (command : Command) (p : Bytes) : Result Command :=
  if p = [] then .ok command else .error (.invalid "unexpected payload")

/-- Read a frame of the MTA. -/
def decode (f : Frame) : Result Command :=
  let p := f.payload
  if f.command = byte 'O' then decodeNegotiate p
  else if f.command = byte 'C' then decodeConnect p
  else if f.command = byte 'D' then decodeMacro p
  else if f.command = byte 'H' then decodeString .helo p
  else if f.command = byte 'U' then decodeString .unknown p
  else if f.command = byte 'M' then decodeEnvelope .mail p
  else if f.command = byte 'R' then decodeEnvelope .recipient p
  else if f.command = byte 'L' then decodeHeader p
  else if f.command = byte 'B' then .ok (.body p)
  else if f.command = byte 'T' then decodeBare .data p
  else if f.command = byte 'N' then decodeBare .endHeaders p
  else if f.command = byte 'E' then decodeBare .endMessage p
  else if f.command = byte 'A' then decodeBare .abort p
  else if f.command = byte 'Q' then decodeBare .quit p
  else if f.command = byte 'K' then decodeBare .quitNewConnection p
  else .error (.invalid "unknown opcode")

/-! ### Opcodes of decoded commands -/

/-- The opcode a command arrives with. -/
def opcode : Command → UInt8
  | .negotiate _ => byte 'O'
  | .connect _ => byte 'C'
  | .macros .. => byte 'D'
  | .helo _ => byte 'H'
  | .mail _ => byte 'M'
  | .recipient _ => byte 'R'
  | .data => byte 'T'
  | .header .. => byte 'L'
  | .endHeaders => byte 'N'
  | .body _ => byte 'B'
  | .endMessage => byte 'E'
  | .abort => byte 'A'
  | .quit => byte 'Q'
  | .quitNewConnection => byte 'K'
  | .unknown _ => byte 'U'

/-- A decoded negotiation is an offer. -/
theorem decodeNegotiate_ok {p : Bytes} {c : Command} (h : decodeNegotiate p = .ok c) :
    ∃ o, c = .negotiate o := by
  unfold decodeNegotiate at h
  split at h
  · exact ⟨_, (Except.ok.inj h).symm⟩
  · exact nomatch h

/-- A decoded CONNECT is the connection's. -/
theorem decodeConnect_ok {p : Bytes} {c : Command} (h : decodeConnect p = .ok c) :
    ∃ info, c = .connect info := by
  obtain ⟨stop, _, h⟩ := Result.bind_ok_iff.mp h
  obtain ⟨family, _, h⟩ := Result.bind_ok_iff.mp h
  obtain ⟨⟨port, address⟩, _, h⟩ := Result.bind_ok_iff.mp h
  exact ⟨_, (Except.ok.inj h).symm⟩

/-- Decoded macros are those of a stage that has some. -/
theorem decodeMacro_ok {p : Bytes} {c : Command} (h : decodeMacro p = .ok c) :
    ∃ stage values, c = .macros stage values ∧ stage ∈ macroStages := by
  unfold decodeMacro at h
  cases p with
  | nil => exact nomatch h
  | cons stage rest =>
    obtain ⟨_, hs, h⟩ := Result.bind_ok_iff.mp h
    obtain ⟨fields, _, h⟩ := Result.bind_ok_iff.mp h
    obtain ⟨_, _, h⟩ := Result.bind_ok_iff.mp h
    obtain ⟨values, _, h⟩ := Result.bind_ok_iff.mp h
    exact ⟨stage, values, (Except.ok.inj h).symm, not_not.mp (rejectIf_eq_ok.mp hs)⟩

/-- A decoded text is what is made of it. -/
theorem decodeString_ok {make : Bytes → Command} {p : Bytes} {c : Command}
    (h : decodeString make p = .ok c) : ∃ s, c = make s := by
  obtain ⟨fields, _, h⟩ := Result.bind_ok_iff.mp h
  split at h
  · exact ⟨_, (Except.ok.inj h).symm⟩
  · exact nomatch h

/-- A decoded envelope command has an address in front. -/
theorem decodeEnvelope_ok {make : List Bytes → Command} {p : Bytes} {c : Command}
    (h : decodeEnvelope make p = .ok c) :
    ∃ address parameters, c = make (address :: parameters) := by
  obtain ⟨fields, _, h⟩ := Result.bind_ok_iff.mp h
  split at h
  · exact ⟨_, _, (Except.ok.inj h).symm⟩
  · exact nomatch h

/-- A decoded header has a name and a value. -/
theorem decodeHeader_ok {p : Bytes} {c : Command} (h : decodeHeader p = .ok c) :
    ∃ name value, c = .header name value := by
  obtain ⟨fields, _, h⟩ := Result.bind_ok_iff.mp h
  split at h
  · split at h
    · exact nomatch h
    · exact ⟨_, _, (Except.ok.inj h).symm⟩
  · exact nomatch h

/-- A decoded bare command is the one that was meant. -/
theorem decodeBare_ok {command : Command} {p : Bytes} {c : Command}
    (h : decodeBare command p = .ok c) : c = command := by
  unfold decodeBare at h
  split at h
  · exact (Except.ok.inj h).symm
  · exact nomatch h

/-- A decoded command arrived with its own opcode. -/
theorem decode_opcode {f : Frame} {c : Command} (h : decode f = .ok c) : f.command = c.opcode := by
  unfold decode at h
  rcases Result.ite_ok h with ⟨ho, h⟩ | ⟨-, h⟩
  · obtain ⟨o, rfl⟩ := decodeNegotiate_ok h; exact ho
  rcases Result.ite_ok h with ⟨hc, h⟩ | ⟨-, h⟩
  · obtain ⟨info, rfl⟩ := decodeConnect_ok h; exact hc
  rcases Result.ite_ok h with ⟨hd, h⟩ | ⟨-, h⟩
  · obtain ⟨stage, values, rfl, _⟩ := decodeMacro_ok h; exact hd
  rcases Result.ite_ok h with ⟨hh, h⟩ | ⟨-, h⟩
  · obtain ⟨text, rfl⟩ := decodeString_ok h; exact hh
  rcases Result.ite_ok h with ⟨hu, h⟩ | ⟨-, h⟩
  · obtain ⟨text, rfl⟩ := decodeString_ok h; exact hu
  rcases Result.ite_ok h with ⟨hm, h⟩ | ⟨-, h⟩
  · obtain ⟨address, parameters, rfl⟩ := decodeEnvelope_ok h; exact hm
  rcases Result.ite_ok h with ⟨hr, h⟩ | ⟨-, h⟩
  · obtain ⟨address, parameters, rfl⟩ := decodeEnvelope_ok h; exact hr
  rcases Result.ite_ok h with ⟨hl, h⟩ | ⟨-, h⟩
  · obtain ⟨name, value, rfl⟩ := decodeHeader_ok h; exact hl
  rcases Result.ite_ok h with ⟨hb, h⟩ | ⟨-, h⟩
  · obtain rfl := Except.ok.inj h; exact hb
  rcases Result.ite_ok h with ⟨ht, h⟩ | ⟨-, h⟩
  · obtain rfl := decodeBare_ok h; exact ht
  rcases Result.ite_ok h with ⟨hn, h⟩ | ⟨-, h⟩
  · obtain rfl := decodeBare_ok h; exact hn
  rcases Result.ite_ok h with ⟨he, h⟩ | ⟨-, h⟩
  · obtain rfl := decodeBare_ok h; exact he
  rcases Result.ite_ok h with ⟨ha, h⟩ | ⟨-, h⟩
  · obtain rfl := decodeBare_ok h; exact ha
  rcases Result.ite_ok h with ⟨hq, h⟩ | ⟨-, h⟩
  · obtain rfl := decodeBare_ok h; exact hq
  rcases Result.ite_ok h with ⟨hk, h⟩ | ⟨-, h⟩
  · obtain rfl := decodeBare_ok h; exact hk
  exact nomatch h

end Command

end MtaHooks
