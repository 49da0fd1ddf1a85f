import MtaHooks.Hooks.Invoke
import MtaHooks.Hooks.StageConfirmation

namespace MtaHooks

/-!
# Registration with the scanner

`register` and what it accepts.  URLs and times are those of the `url` and `chrono` crates:
`Urls` is what the client asks of a URL, `parseRfc3339` reads a time.

* `ScannerClient.Confirmed` — what a registration promises once it is accepted;
* `ScannerClient.register_confirmed` — every accepted registration keeps these promises.
-/

/-- What follows a check is reached if the check passes. -/
theorem rejectIf_bind_ok {α : Type} {p : Prop} [Decidable p] {e : Error} {f : Unit → Result α}
    {a : α} : (rejectIf p e >>= f) = .ok a ↔ ¬ p ∧ f () = .ok a := by
  rw [Result.bind_ok_iff]
  constructor
  · rintro ⟨u, hp, hf⟩
    exact ⟨rejectIf_eq_ok.mp hp, hf⟩
  · rintro ⟨hp, hf⟩
    exact ⟨(), rejectIf_eq_ok.mpr hp, hf⟩

/-- What follows a lookup is reached if there is something to find. -/
theorem okOr_bind_ok {α β : Type} {o : Option α} {e : Error} {f : α → Result β} {b : β} :
    (okOr o e >>= f) = .ok b ↔ ∃ a, o = some a ∧ f a = .ok b := by
  simp only [Result.bind_ok_iff, okOr_eq_ok]

/-- `IpAddr::is_loopback`. -/
def IpAddr.isLoopback : IpAddr → Bool
  | .v4 octets => octets.head? = some 127
  | .v6 groups => groups = [0, 0, 0, 0, 0, 0, 0, 1]

namespace Json

/-- `v[key]`: null if there is no such entry. -/
def index (v : Json) (key : Str) : Json := (v.get key).getD .null

/-- `Value::as_array`. -/
def asArray : Json → Option (List Json)
  | .array items => some items
  | _ => none

end Json

namespace Hooks

open Invoke (HttpFailure Response boundedJson httpError)

/-- What the client asks of a URL. -/
structure Urls (Url Origin : Type) where
  join : Url → Str → Option Url
  scheme : Url → Str
  host : Url → Option Str
  username : Url → Str
  password : Url → Option Str
  fragment : Url → Option Str
  origin : Url → Origin

namespace Urls

variable {Url Origin : Type} (urls : Urls Url Origin)

/-- `str::trim_matches` with both square brackets. -/
def trimBrackets (s : Str) : Str :=
  let bracket := fun c => c = byte '[' || c = byte ']'
  ((s.dropWhile bracket).reverse.dropWhile bracket).reverse

/-- The host is a literal loopback address. -/
def isLoopback (url : Url) : Bool :=
  (urls.host url).any fun s => (parseIpAddr (trimBrackets s)).any IpAddr.isLoopback

/-- HTTPS, or plain HTTP to a loopback address in development; no credentials, no fragment. -/
def validateUrl (insecureLoopback : Bool) (url : Url) : Result Unit := do
  rejectIf (urls.scheme url ≠ ascii "https" ∧
      ¬ (insecureLoopback ∧ urls.scheme url = ascii "http" ∧ urls.isLoopback url))
    (.invalid "HTTPS required (development HTTP needs a literal loopback IP)")
  rejectIf (urls.username url ≠ [] ∨ (urls.password url).isSome ∨ (urls.fragment url).isSome)
    (.invalid "URL credentials or fragment")

/-- A URL that credentials may be sent to. -/
structure Trusted (insecureLoopback : Bool) (url : Url) : Prop where
  scheme : urls.scheme url = ascii "https" ∨
    insecureLoopback = true ∧ urls.scheme url = ascii "http" ∧ urls.isLoopback url = true
  username : urls.username url = []
  password : urls.password url = none
  fragment : urls.fragment url = none

/-- The accepted URLs are the trusted ones. -/
theorem validateUrl_ok {insecureLoopback : Bool} {url : Url} :
    urls.validateUrl insecureLoopback url = .ok () ↔ urls.Trusted insecureLoopback url := by
  unfold validateUrl
  rw [rejectIf_bind_ok, rejectIf_eq_ok]
  constructor
  · rintro ⟨hscheme, hparts⟩
    simp only [not_or, not_not, Bool.not_eq_true, Option.isSome_eq_false_iff,
      Option.isNone_iff_eq_none] at hparts
    refine ⟨?_, hparts.1, hparts.2.1, hparts.2.2⟩
    by_contra hnot
    rw [not_or] at hnot
    exact hscheme ⟨hnot.1, hnot.2⟩
  · rintro ⟨hscheme, husername, hpassword, hfragment⟩
    refine ⟨?_, ?_⟩
    · rintro ⟨hhttps, hnot⟩
      exact hnot (hscheme.resolve_left hhttps)
    · simp [husername, hpassword, hfragment]

end Urls

/-- The settings of the client, with the libraries it uses. -/
structure ScannerClient (Url Origin : Type) where
  urls : Urls Url Origin
  b64 : Base64
  fromSlice : Bytes → Option Json
  parseRfc3339 : Str → Option ℤ
  registrationUrl : Url
  authentication : Str
  name : Str
  /-- In milliseconds. -/
  timeout : ℕ
  responseLimit : ℕ := 1024 * 1024
  insecureLoopback : Bool
  stages : List Stage
  retries : ℕ := 2
  deregister : Bool := true

/-- The properties without which no response can be read. -/
def requiredProperties : List Str := [ascii "/stage", ascii "/action"]

/-- A byte of a registration id. -/
def isIdByte (c : UInt8) : Bool :=
  isAsciiDigit c || (byte 'a' ≤ c && c ≤ byte 'z') || (byte 'A' ≤ c && c ≤ byte 'Z') ||
    c = byte '-' || c = byte '_' || c = byte ':'

namespace ScannerClient

variable {Url Origin : Type} [DecidableEq Origin] (c : ScannerClient Url Origin)

/-- A registration that the scanner confirmed. -/
structure Registration (Url : Type) where
  id : Str
  endpoint : Url
  deregistration : Option Url
  expires : Option ℤ
  properties : List Str

/-- The names of the configured stages. -/
def stageNames : List Str := c.stages.map Stage.hookName

/-- The body of the registration request. -/
def registrationBody : Json :=
  .ofFields [("name", .string c.name), ("version", .string "0.1.0"),
    ("timeoutMs", .number (.pos (UInt64.ofNat c.timeout))), ("serialization", .string "json"),
    ("inbound", .ofFields [("stages", .array (c.stageNames.map .string)),
      ("properties", .array (offeredProperties.map .string))]),
    ("outbound", .null)]

/-- Resolve a scanner-supplied path against the registration URL; credentials are only ever
    sent to the registration origin. -/
def sameOrigin (path : Str) : Result Url := do
  let url ← okOr (c.urls.join c.registrationUrl path) (.invalid "scanner endpoint URL")
  c.urls.validateUrl c.insecureLoopback url
  rejectIf (c.urls.origin url ≠ c.urls.origin c.registrationUrl)
    (.invalid "cross-origin scanner endpoint")
  return url

/-- A confirmed property must be an offered one; it is taken once. -/
def confirmProperty (properties : List Str) (prop : Json) : Result (List Str) := do
  let prop ← okOr (prop.asStr.filter offeredProperties.contains)
    (.invalid "scanner confirmed a property outside the offered profile")
  return if properties.any (· = prop) then properties else properties ++ [prop]

/-- The confirmed properties, each one once. -/
def confirmProperties (props : List Json) : Result (List Str) := props.foldlM confirmProperty []

/-- The deregistration endpoint, if one is offered. -/
def confirmDeregistration (endpoint : Option Json) : Result (Option Url) :=
  match endpoint with
  | some (.string path) => do
    let url ← c.sameOrigin path
    return some url
  | some .null | none => .ok none
  | some _ => .error (.invalid "deregistration endpoint")

/-- The expiry, if there is one. -/
def confirmExpiry (expiry : Option Json) : Result (Option ℤ) :=
  match expiry.filter fun v => !v.isNull with
  | some v => do
    let text ← okOr v.asStr (.invalid "registration expiry")
    let expires ← okOr (c.parseRfc3339 text) (.invalid "registration expiry")
    return some expires
  | none => .ok none

/-- What the answer of the scanner amounts to. -/
def register (now : ℤ) (exchange : Except HttpFailure Response) : Result (Registration Url) := do
  let response ← exchange.mapError httpError
  rejectIf (response.status ≠ 201) (.httpStatus response.status)
  let value ← boundedJson c.fromSlice response c.responseLimit
  let id ← okOr (value.index "registrationId").asStr (.invalid "registration id")
  rejectIf (id = [] ∨ 255 < id.length ∨ ¬ id.all isIdByte) (.invalid "registration id")
  let negotiated := value.index "negotiated"
  rejectIf ((value.index "status").asStr ≠ some (ascii "active") ∨
      (negotiated.index "serialization").asStr ≠ some (ascii "json"))
    (.invalid "incompatible registration")
  let inbound := negotiated.index "inbound"
  let stages ← okOr (inbound.index "stages").asArray (.invalid "registration stages")
  confirmStages c.stageNames stages
  let props ← okOr (inbound.index "properties").asArray (.invalid "registration properties")
  let properties ← confirmProperties props
  rejectIf (requiredProperties.any fun p => !properties.any (· = p))
    (.invalid "scanner did not confirm the required properties")
  let path ← okOr (value.index "hookEndpoint").asStr (.invalid "hook endpoint")
  let endpoint ← c.sameOrigin path
  let deregistration ← c.confirmDeregistration ((value.index "endpoints").get "deregistration")
  let expires ← c.confirmExpiry (value.get "expiresAt")
  rejectIf (expires.any (· ≤ now)) (.invalid "expired registration")
  return { id, endpoint, deregistration, expires, properties }

/-! ### What an accepted registration promises -/

/-- A URL of the scanner: trusted, and of the origin of the registration URL. -/
structure Own (url : Url) : Prop where
  trusted : c.urls.Trusted c.insecureLoopback url
  origin : c.urls.origin url = c.urls.origin c.registrationUrl

/-- An id that fits a header and the text of a log. -/
structure GoodId (id : Str) : Prop where
  nonempty : id ≠ []
  short : id.length ≤ 255
  bytes : ∀ b ∈ id, isIdByte b = true

/-- What a registration promises once it is accepted. -/
structure Confirmed (now : ℤ) (reg : Registration Url) : Prop where
  id : GoodId reg.id
  endpoint : c.Own reg.endpoint
  deregistration : ∀ url, reg.deregistration = some url → c.Own url
  fresh : ∀ e, reg.expires = some e → now < e
  offered : ∀ p ∈ reg.properties, p ∈ offeredProperties
  required : ∀ p ∈ requiredProperties, p ∈ reg.properties
  nodup : reg.properties.Nodup

variable {c}

/-- A URL of the same origin is the client's own. -/
theorem sameOrigin_ok {path : Str} {url : Url} (h : c.sameOrigin path = .ok url) : c.Own url := by
  obtain ⟨u, -, h⟩ := okOr_bind_ok.mp h
  obtain ⟨_, hvalid, h⟩ := Result.bind_ok_iff.mp h
  obtain ⟨horigin, h⟩ := rejectIf_bind_ok.mp h
  obtain rfl := Except.ok.inj h
  exact ⟨c.urls.validateUrl_ok.mp hvalid, not_not.mp horigin⟩

/-- An endpoint that is confirmed is the client's own. -/
theorem confirmDeregistration_ok {endpoint : Option Json} {result : Option Url} {url : Url}
    (h : c.confirmDeregistration endpoint = .ok result) (hurl : result = some url) :
    c.Own url := by
  unfold confirmDeregistration at h
  split at h
  next path =>
    obtain ⟨u, hown, h⟩ := Result.bind_ok_iff.mp h
    obtain rfl := Except.ok.inj h
    obtain rfl := Option.some.inj hurl
    exact sameOrigin_ok hown
  next =>
    rw [hurl] at h
    exact nomatch Except.ok.inj h
  next =>
    rw [hurl] at h
    exact nomatch Except.ok.inj h
  next => exact nomatch h

/-- Only offered properties are confirmed, each one once. -/
theorem confirmProperties_ok {props : List Json} {before after : List Str}
    (h : props.foldlM confirmProperty before = .ok after)
    (hoffered : ∀ p ∈ before, p ∈ offeredProperties) (hnodup : before.Nodup) :
    (∀ p ∈ after, p ∈ offeredProperties) ∧ after.Nodup := by
  induction props generalizing before with
  | nil =>
    obtain rfl := Except.ok.inj h
    exact ⟨hoffered, hnodup⟩
  | cons prop props ih =>
    rw [List.foldlM_cons] at h
    obtain ⟨next, hstep, h⟩ := Result.bind_ok_iff.mp h
    obtain ⟨p, hp, hstep⟩ := okOr_bind_ok.mp hstep
    have hmem : p ∈ offeredProperties :=
      List.contains_iff_mem.mp (Option.filter_eq_some_iff.mp hp).2
    obtain rfl := Except.ok.inj hstep
    split at h
    next => exact ih h hoffered hnodup
    next hfresh =>
      refine ih h (fun q hq => ?_) ?_
      · rcases List.mem_append.mp hq with hq | hq
        · exact hoffered q hq
        · obtain rfl := List.mem_singleton.mp hq
          exact hmem
      · rw [List.nodup_append]
        refine ⟨hnodup, List.nodup_singleton p, fun q hq r hr => ?_⟩
        obtain rfl := List.mem_singleton.mp hr
        rintro rfl
        exact hfresh (List.any_eq_true.mpr ⟨q, hq, decide_eq_true rfl⟩)

/-- **An accepted registration keeps its promises.** -/
theorem register_confirmed {now : ℤ} {exchange : Except HttpFailure Response}
    {reg : Registration Url} (h : c.register now exchange = .ok reg) : c.Confirmed now reg := by
  obtain ⟨response, -, h⟩ := Result.bind_ok_iff.mp h
  obtain ⟨-, h⟩ := rejectIf_bind_ok.mp h
  obtain ⟨value, -, h⟩ := Result.bind_ok_iff.mp h
  obtain ⟨id, -, h⟩ := okOr_bind_ok.mp h
  obtain ⟨hid, h⟩ := rejectIf_bind_ok.mp h
  obtain ⟨-, h⟩ := rejectIf_bind_ok.mp h
  obtain ⟨stages, -, h⟩ := okOr_bind_ok.mp h
  obtain ⟨_, -, h⟩ := Result.bind_ok_iff.mp h
  obtain ⟨props, -, h⟩ := okOr_bind_ok.mp h
  obtain ⟨properties, hprops, h⟩ := Result.bind_ok_iff.mp h
  obtain ⟨hrequired, h⟩ := rejectIf_bind_ok.mp h
  obtain ⟨path, -, h⟩ := okOr_bind_ok.mp h
  obtain ⟨endpoint, hendpoint, h⟩ := Result.bind_ok_iff.mp h
  obtain ⟨deregistration, hderegistration, h⟩ := Result.bind_ok_iff.mp h
  obtain ⟨expires, -, h⟩ := Result.bind_ok_iff.mp h
  obtain ⟨hexpired, h⟩ := rejectIf_bind_ok.mp h
  obtain rfl := Except.ok.inj h
  simp only [not_or, not_lt, not_not, List.all_eq_true] at hid
  obtain ⟨hoffered, hnodup⟩ :=
    confirmProperties_ok hprops (fun p hp => (nomatch hp)) List.nodup_nil
  refine ⟨⟨hid.1, hid.2.1, hid.2.2⟩, sameOrigin_ok hendpoint,
    fun url hurl => confirmDeregistration_ok hderegistration hurl, fun e he => ?_, hoffered,
    fun p hp => ?_, hnodup⟩
  · obtain rfl : expires = some e := he
    simpa using hexpired
  · simp only [List.any_eq_true, not_exists, not_and, Bool.not_eq_true', Bool.not_eq_false]
      at hrequired
    obtain ⟨q, hq, heq⟩ := hrequired p hp
    exact of_decide_eq_true heq ▸ hq

end ScannerClient

end Hooks

end MtaHooks
