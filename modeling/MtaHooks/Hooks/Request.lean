import MtaHooks.Hooks.Json
import MtaHooks.Session.Invariant

namespace MtaHooks

open FallibleState

/-!
# Hook requests

`request` projects a session on the negotiated properties.  Base64 and the clock are the
environment's: `Base64` is the codec with the law the code relies on, `timestamp` is the
formatted time.

* `request_failsWith` — the errors of a request whose connection and sender are known;
* `reachable_session` — every reachable session is valid, so the request of a pending
  callback misses neither connection nor sender, and EOM has a sender and a recipient.
-/

/-- A base64 codec. -/
structure Base64 where
  encode : Bytes → Str
  decode : Str → Option Bytes
  decode_encode : ∀ b, decode (encode b) = some b

namespace Hooks

/-- The bytes as a text. -/
def text (bytes : Bytes) : Result Str :=
  if isUtf8 bytes then .ok bytes else .error (.invalid "non-UTF8 envelope or metadata")

/-- A text is its bytes, if they are UTF-8. -/
theorem text_ok {b s : Bytes} (h : text b = .ok s) : s = b ∧ isUtf8 b = true := by
  unfold text at h
  rcases Result.ite_ok h with ⟨hu, h⟩ | ⟨-, h⟩
  · exact ⟨(Except.ok.inj h).symm, hu⟩
  · exact nomatch h

/-- An ESMTP parameter as an entry of the map. -/
def parameter (p : Bytes) : Result (Str × Json) := do
  let p ← text p
  let (k, v) := (splitOnce (byte '=') p).getD (p, [])
  return (k, .string v)

/-- An envelope address without its brackets; the null sender is null. -/
def address (a : EnvelopeAddress) (sender : Bool) : Result Json := do
  let s ← text a.address
  -- Both brackets are removed or none.
  let s := ((stripPrefix "<" s).bind (stripSuffix ">")).getD s
  let parameters ← a.parameters.mapM parameter
  return .ofFields
    [("address", if sender && s.isEmpty then .null else .string s),
      ("parameters", .ofFields parameters)]

/-- An optional byte string as a text. -/
def optionalText : Option Bytes → Result (Option Str)
  | none => .ok none
  | some b => do
    let s ← text b
    return some s

/-- A macro value that is present and non-empty, as UTF-8. -/
def macroText (session : Session) (name : Str) : Result (Option Str) :=
  optionalText ((session.macroValue name).filter fun v => !v.isEmpty)

/-- A macro value that is a number. -/
def macroNumber (session : Session) (name : Str) : Result Json := do
  let v ← macroText session name
  return .ofU64 (v.bind parseU64)

/-- The envelope, from MAIL on. -/
def envelope (session : Session) (stage : Stage) : Result Json :=
  match session.message.sender with
  | some sender =>
    if stage ≠ .connect ∧ stage ≠ .helo then do
      -- The recipients are projected before the sender.
      let recipients ← session.message.recipients.mapM fun r => address r false
      let sender ← address sender true
      return .ofFields [("from", sender), ("to", .array recipients)]
    else .ok .null
  | none => if stage = .endMessage then .error (.invalid "missing sender") else .ok .null

/-- Address and EHLO name of the client. -/
def client (session : Session) (connection : Connection) : Result Json := do
  let macroIp ← macroText session "client_addr"
  let connectionIp ← optionalText connection.address
  let ehlo ← optionalText session.helo
  let ptr ← macroText session "client_ptr"
  let connections ← macroNumber session "client_connections"
  let client := Json.ofFields
    [("ip", .ofText (macroIp.or connectionIp)),
      ("port", .ofU64 (connection.port.map UInt16.toNat)), ("ehlo", .ofText ehlo)]
  let client := match ptr with
    | some ptr => client.set "ptr" (.string ptr)
    | none => client
  return match connections with
    | .number n => client.set "activeConnections" (.number n)
    | _ => client

/-- The TLS session. -/
def tls (session : Session) : Result Json := do
  match ← macroText session "tls_version" with
  | some version => do
    let cipher ← macroText session "cipher"
    let cipherBits ← macroNumber session "cipher_bits"
    let certSubject ← macroText session "cert_subject"
    let certIssuer ← macroText session "cert_issuer"
    return .ofFields
      [("version", .string version), ("cipher", .ofText cipher), ("cipherBits", cipherBits),
        ("certSubject", .ofText certSubject), ("certIssuer", .ofText certIssuer)]
  | none => return .null

/-- The SMTP authentication. -/
def auth (session : Session) : Result Json := do
  match ← macroText session "auth_authen" with
  | some login => do
    let method ← macroText session "auth_type"
    return .ofFields [("login", .string login), ("method", .ofText method)]
  | none => return .null

/-- The listener of the MTA. -/
def server (session : Session) : Result Json := do
  let name ← macroText session "j"
  let ip ← macroText session "daemon_addr"
  -- The port alone does not make a server.
  if name.isNone && ip.isNone then return .null
  else do
    let port ← macroNumber session "daemon_port"
    return .ofFields [("name", .ofText name), ("ip", .ofText ip), ("port", port)]

/-- The queue id. -/
def queue (session : Session) : Result Json := do
  let id ← macroText session "i"
  return match id with
    | some id => .ofFields [("id", .string id)]
    | none => .null

/-- The properties offered to the scanner. -/
def offeredProperties : List Str :=
  [ascii "/stage", ascii "/action", ascii "/timestamp", ascii "/protocol", ascii "/rawMessage",
    ascii "/envelope", ascii "/queue", ascii "/client", ascii "/tls", ascii "/auth",
    ascii "/server"]

/-- The value of one negotiated property. -/
def property (b64 : Base64) (timestamp : Str) (session : Session) (connection : Connection)
    (stage : Stage) (property : Str) : Result Json :=
  if property = ascii "/stage" then .ok (.string stage.hookName)
  else if property = ascii "/action" then .ok (.string "accept")
  else if property = ascii "/timestamp" then .ok (.string timestamp)
  else if property = ascii "/protocol" then .ok (.ofFields [("version", .string "1.0")])
  else if property = ascii "/rawMessage" then
    .ok (if stage = .endMessage then .string (b64.encode session.rawMessage) else .null)
  else if property = ascii "/envelope" then envelope session stage
  else if property = ascii "/queue" then queue session
  else if property = ascii "/client" then client session connection
  else if property = ascii "/tls" then tls session
  else if property = ascii "/auth" then auth session
  else if property = ascii "/server" then server session
  else .error (.invalid "unknown negotiated property")

/-- The hook request of a stage, from the negotiated properties only. -/
def request (b64 : Base64) (timestamp : Str) (session : Session) (stage : Stage)
    (properties : List Str) : Result Json := do
  let connection ← okOr session.connection (.invalid "missing connection")
  let body ← properties.foldlM (fun body p => do
    let value ← property b64 timestamp session connection stage p
    return Json.insertField (p.drop 1) value body) []
  return .object body

/-! ### The errors of a request -/

/-- The request fails on text that is no UTF-8 or on an unknown property. -/
def RequestError (e : Error) : Prop :=
  e = .invalid "non-UTF8 envelope or metadata" ∨ e = .invalid "unknown negotiated property"

open Result

/-- A text fails as a request does. -/
theorem text_failsWith (b : Bytes) : FailsWith RequestError (text b) :=
  .ite (fun _ => .ok _) fun _ => .error (.inl rfl)

/-- An address fails as a request does. -/
theorem address_failsWith (a : EnvelopeAddress) (sender : Bool) :
    FailsWith RequestError (address a sender) := by
  have hparameter : ∀ p, FailsWith RequestError (parameter p) :=
    fun p => .bind (text_failsWith p) fun _ => .pure _
  exact .bind (text_failsWith _) fun _ => .bind (.mapM hparameter _) fun _ => .pure _

/-- A text that may be missing fails as a request does. -/
theorem optionalText_failsWith (b : Option Bytes) : FailsWith RequestError (optionalText b) := by
  cases b with
  | none => exact .ok _
  | some b => exact .bind (text_failsWith b) fun _ => .pure _

/-- The text of a macro fails as a request does. -/
theorem macroText_failsWith (s : Session) (name : Str) :
    FailsWith RequestError (macroText s name) :=
  optionalText_failsWith _

/-- The number of a macro fails as a request does. -/
theorem macroNumber_failsWith (s : Session) (name : Str) :
    FailsWith RequestError (macroNumber s name) :=
  .bind (macroText_failsWith s name) fun _ => .pure _

/-- The envelope fails as a request does, if there is a sender at the end. -/
theorem envelope_failsWith {s : Session} {stage : Stage}
    (hsender : stage = .endMessage → s.message.sender.isSome) :
    FailsWith RequestError (envelope s stage) := by
  unfold envelope
  cases hs : s.message.sender with
  | some sender =>
    refine .ite (fun _ => ?_) fun _ => .ok _
    exact .bind (.mapM (fun r => address_failsWith r false) _) fun _ =>
      .bind (address_failsWith _ _) fun _ => .pure _
  | none =>
    refine .ite (fun hstage => ?_) fun _ => .ok _
    have := hsender hstage
    rw [hs] at this
    exact nomatch this

/-- The client fails as a request does. -/
theorem client_failsWith (s : Session) (connection : Connection) :
    FailsWith RequestError (client s connection) :=
  .bind (macroText_failsWith s _) fun _ => .bind (optionalText_failsWith _) fun _ =>
    .bind (optionalText_failsWith _) fun _ => .bind (macroText_failsWith s _) fun _ =>
      .bind (macroNumber_failsWith s _) fun _ => .pure _

/-- The TLS properties fail as a request does. -/
theorem tls_failsWith (s : Session) : FailsWith RequestError (tls s) := by
  refine .bind (macroText_failsWith s _) fun version => ?_
  cases version with
  | none => exact .pure _
  | some version =>
    exact .bind (macroText_failsWith s _) fun _ => .bind (macroNumber_failsWith s _) fun _ =>
      .bind (macroText_failsWith s _) fun _ => .bind (macroText_failsWith s _) fun _ => .pure _

/-- The properties of the login fail as a request does. -/
theorem auth_failsWith (s : Session) : FailsWith RequestError (auth s) := by
  refine .bind (macroText_failsWith s _) fun login => ?_
  cases login with
  | none => exact .pure _
  | some login => exact .bind (macroText_failsWith s _) fun _ => .pure _

/-- The server's properties fail as a request does. -/
theorem server_failsWith (s : Session) : FailsWith RequestError (server s) :=
  .bind (macroText_failsWith s _) fun _ => .bind (macroText_failsWith s _) fun _ =>
    .ite (fun _ => .pure _) fun _ => .bind (macroNumber_failsWith s _) fun _ => .pure _

/-- Each property fails as a request does. -/
theorem property_failsWith {b64 : Base64} {timestamp : Str} {s : Session}
    {connection : Connection} {stage : Stage} (p : Str)
    (hsender : stage = .endMessage → s.message.sender.isSome) :
    FailsWith RequestError (property b64 timestamp s connection stage p) :=
  .ite (fun _ => .ok _) fun _ => .ite (fun _ => .ok _) fun _ => .ite (fun _ => .ok _) fun _ =>
    .ite (fun _ => .ok _) fun _ => .ite (fun _ => .ok _) fun _ =>
      .ite (fun _ => envelope_failsWith hsender) fun _ =>
        .ite (fun _ => .bind (macroText_failsWith s _) fun _ => .pure _) fun _ =>
          .ite (fun _ => client_failsWith s connection) fun _ =>
            .ite (fun _ => tls_failsWith s) fun _ => .ite (fun _ => auth_failsWith s) fun _ =>
              .ite (fun _ => server_failsWith s) fun _ => .error (.inr rfl)

/-- With the connection known, and the sender at the end of the message, a request fails on
    its texts and its properties only. -/
theorem request_failsWith {b64 : Base64} {timestamp : Str} {s : Session} {stage : Stage}
    (properties : List Str) (hconnection : s.connection.isSome)
    (hsender : stage = .endMessage → s.message.sender.isSome) :
    FailsWith RequestError (request b64 timestamp s stage properties) := by
  obtain ⟨connection, hc⟩ := Option.isSome_iff_exists.mp hconnection
  unfold request
  rw [hc]
  refine .bind (.ok _) fun _ => .bind (.foldlM (fun _ p => ?_) _ _) fun _ => .pure _
  exact .bind (property_failsWith p hsender) fun _ => .pure _

end Hooks

namespace Session

/-- **The representation invariant and what it is for.** -/
theorem reachable_session {s : Session} (h : s.Reachable) :
    Valid s ∧
    (∀ stage, s.pending = some stage → ∀ b64 timestamp properties e,
      Hooks.request b64 timestamp s stage properties = .error e →
        e ≠ .invalid "missing connection" ∧ e ≠ .invalid "missing sender") ∧
    ∀ f step t, receive f s = (.ok step, t) → Command.decode f = .ok .endMessage →
      s.message.sender.isSome ∧ s.message.recipients ≠ [] := by
  have hvalid := h.valid
  refine ⟨hvalid, fun stage hpending b64 timestamp properties e he => ?_,
    fun f step t hr hf => ?_⟩
  · have hstate := hvalid.awaits stage hpending
    have hconnection : s.connection.isSome :=
      hvalid.connection (by rw [hstate]; cases stage <;> rfl)
    have hsender : stage = .endMessage → s.message.sender.isSome := by
      rintro rfl
      rw [hvalid.sender, hstate]
      rfl
    rcases Hooks.request_failsWith properties hconnection hsender e he with rfl | rfl
    · exact ⟨by decide, by decide⟩
    · exact ⟨by decide, by decide⟩
  · obtain ⟨c, hc, -, -, ha⟩ := receive_ok hr
    obtain rfl : .endMessage = c := Except.ok.inj (hf.symm.trans hc)
    have hstate : s.state = .body := by
      cases ha with
      | perform _ hperforms => cases hperforms; assumption
    refine ⟨by rw [hvalid.sender, hstate]; rfl, hvalid.recipients.mpr (by rw [hstate]; rfl)⟩

/-- A message without headers, up to its end. -/
def sampleBody : Session :=
  Sample.received []
    [Sample.offer, Sample.connect, Sample.mail, Sample.rcpt "<b>", Sample.data, Sample.endHeaders]

/-- The session of the sample is valid, and has an envelope. -/
theorem reachable_session_at_body :
    Valid sampleBody ∧ sampleBody.message.sender.isSome ∧ sampleBody.message.recipients ≠ [] := by
  have hreach : sampleBody.Reachable := Sample.received_reachable _ _
  have hstep : (receive Sample.endMessage sampleBody).1 = .ok { event := some .endMessage } := by
    decide +kernel
  exact ⟨(reachable_session hreach).1, (reachable_session hreach).2.2 Sample.endMessage _ _
    (Prod.ext hstep rfl) (by decide +kernel)⟩

end Session

end MtaHooks
