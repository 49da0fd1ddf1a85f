import MtaHooks.Hooks.Registration
import MtaHooks.Hooks.Translate
import MtaHooks.Lib.BoundedLoop

namespace MtaHooks

open BoundedLoop

/-!
# `HooksClient::invoke`

One invocation of the scanner: its registration, the request built from the confirmed
properties, and the loop that recovers the registration once and retries transient failures.
The HTTP client, the clock, the jitter and `registered` are the world's: what it answers may
depend on everything the invocation did before.

* `invoke_bounded` — the invocation ends, with a bounded number of requests, each one repeated
  for a reason.
-/

namespace Hooks.Invoke

/-! ### Responses -/

/-- An error of the HTTP client, by what it says about itself. -/
structure HttpFailure where
  isTimeout : Bool := false
  isConnect : Bool := false
  isDecode : Bool := false
  isBody : Bool := false
  isRequest : Bool := false
  isBuilder : Bool := false
  deriving DecidableEq

/-- The category of an HTTP error; a timeout comes before everything else. -/
def httpError (e : HttpFailure) : Error :=
  .httpTransport <|
    if e.isTimeout then .timeout
    else if e.isConnect then .connect
    else if e.isDecode then .decode
    else if e.isBody then .body
    else if e.isRequest || e.isBuilder then .request
    else .other

/-- A response: its status, the headers that are read (where they are texts), the announced
    length, the chunks of the body and the error that cuts it off. -/
structure Response where
  status : UInt16
  retryAfter : Option Str := none
  contentType : Option Str := none
  contentLength : Option ℕ := none
  chunks : List Bytes := []
  cut : Option HttpFailure := none
  deriving DecidableEq

/-- `str::trim` on the text of a header. -/
def trim (s : Str) : Str :=
  ((s.dropWhile isAsciiWhitespace).reverse.dropWhile isAsciiWhitespace).reverse

/-- Collect the chunks of a body within the limit. -/
def collect (max : ℕ) (cut : Option HttpFailure) : Bytes → List Bytes → Result Bytes
  | data, chunk :: chunks =>
    if max - data.length < chunk.length then .error (.limit "HTTP response")
    else collect max cut (data ++ chunk) chunks
  | data, [] =>
    match cut with
    | some e => .error (httpError e)
    | none => .ok data

/-- The JSON body of a response, within the limit. -/
def boundedJson (fromSlice : Bytes → Option Json) (response : Response) (max : ℕ) :
    Result Json := do
  let mediaType := trim ((response.contentType.getD []).takeWhile (· ≠ byte ';'))
  rejectIf (¬ eqIgnoreAsciiCase mediaType "application/json")
    (.invalid "expected application/json")
  rejectIf (response.contentLength.any fun l => max < l) (.limit "HTTP response")
  let data ← collect max response.cut [] response.chunks
  okOr (fromSlice data) (.invalid "HTTP JSON")

/-- Why a hook request failed, and the pause in milliseconds that the scanner asks for. -/
structure HookFailure where
  error : Error
  retryAfter : Option ℕ := none
  deriving DecidableEq

namespace HookFailure

/-- The classes of failures that are retried; a timeout is none of them. -/
def transient (f : HookFailure) : Bool :=
  match f.error with
  | .httpTransport .connect => true
  | .httpStatus status => status == 429 || (500 ≤ status && status < 600)
  | _ => false

/-- The scanner does not know the registration. -/
def isGone (f : HookFailure) : Bool :=
  match f.error with
  | .httpStatus status => status == 404 || status == 410
  | _ => false

end HookFailure

/-- The outcome of a hook request. -/
abbrev Outcome := Except HookFailure (Option Json)

/-- What `hook` makes of the exchange. -/
def hook (fromSlice : Bytes → Option Json) (responseLimit : ℕ)
    (exchange : Except HttpFailure Response) : Outcome :=
  match exchange with
  | .error e => .error { error := httpError e }
  | .ok response =>
    if response.status = 204 then .ok none
    else if response.status = 200 then
      match boundedJson fromSlice response responseLimit with
      | .ok value => .ok (some value)
      | .error e => .error { error := e }
    else .error {
      error := .httpStatus response.status
      retryAfter := (response.retryAfter.bind (parseU64 <| trim ·)).map (· * 1000) }

/-! ### The pause before a retry -/

/-- `RETRY_BASE`, in milliseconds. -/
def retryBase : ℕ := 100
/-- `RETRY_MAX`, in milliseconds. -/
def retryMax : ℕ := 5000
/-- `RETRY_JITTER_MS`. -/
def retryJitterMs : ℕ := 100

/-- Exponential backoff with jitter, within a cap. -/
def backoff (attempt : ℕ) (retryAfter : Option ℕ) (random : ℕ) : ℕ :=
  let exponential := retryBase * 2 ^ min (attempt - 1) 16
  min (max exponential (retryAfter.getD 0)) retryMax + random % retryJitterMs

/-! ### The loop -/

/-- A registration that the scanner confirmed. -/
structure Registration where
  id : Str
  endpoint : Str
  properties : List Str
  deriving DecidableEq

/-- A hook request that was sent, with its outcome. -/
structure Sent where
  reg : Registration
  body : Json
  result : Outcome

/-- An invocation before it sends a request: the registration and the body it will send, what
    it has used up, the requests already sent, the newest first, and what it added to
    `hook_retries`. -/
structure Invocation where
  reg : Registration
  body : Json
  recovered : Bool := false
  retries : ℕ := 0
  sent : List Sent := []
  hookRetries : ℕ := 0

/-- How an invocation ended. -/
structure Ended where
  result : Result Decision
  sent : List Sent
  hookRetries : ℕ

/-- What the invocation meets in a turn. -/
structure World where
  exchange : Except HttpFailure Response
  registered : Result Registration
  /-- The formatted time of a request built in this turn. -/
  timestamp : Str
  /-- The clock before a pause, in milliseconds. -/
  now : ℕ
  random : ℕ

/-- The client, with the session and stage it is asked about. -/
structure Client where
  b64 : Base64
  fromSlice : Bytes → Option Json
  retries : ℕ
  responseLimit : ℕ := 1024 * 1024
  session : Session
  stage : Stage

namespace Client

variable (c : Client)

/-- The request body of a registration. -/
def bodyOf (timestamp : Str) (reg : Registration) : Result Json :=
  request c.b64 timestamp c.session c.stage reg.properties

/-- Send the request again with the registration of a recovery. -/
def recover (w : World) (s : Invocation) : Ended ⊕ Invocation :=
  match w.registered with
  | .error e => .inl ⟨.error e, s.sent, s.hookRetries⟩
  | .ok reg =>
    match c.bodyOf w.timestamp reg with
    | .error e => .inl ⟨.error e, s.sent, s.hookRetries⟩
    | .ok body => .inr { s with reg, body }

/-- Send the request again after a pause, unless that lasts to the deadline. -/
def retry (deadline : ℕ) (w : World) (failure : HookFailure) (s : Invocation) :
    Ended ⊕ Invocation :=
  let s := { s with retries := s.retries + 1 }
  if deadline ≤ w.now + backoff s.retries failure.retryAfter w.random then
    .inl ⟨.error failure.error, s.sent, s.hookRetries⟩
  else .inr { s with hookRetries := s.hookRetries + 1 }

/-- The outcome of the request of a turn. -/
def outcome (w : World) : Outcome :=
  let limit := (encodedLimit c.session.limits + c.responseLimit) % (usizeMax + 1)
  hook c.fromSlice limit w.exchange

/-- One turn of the loop: a request and what follows from its outcome. -/
def turn (deadline : ℕ) (world : Invocation → World) (s : Invocation) : Ended ⊕ Invocation :=
  let w := world s
  let result := c.outcome w
  let s := { s with sent := ⟨s.reg, s.body, result⟩ :: s.sent }
  match result with
  | .ok (some value) => .inl ⟨translate c.b64 value c.session c.stage, s.sent, s.hookRetries⟩
  | .ok none => .inl ⟨.ok {}, s.sent, s.hookRetries⟩
  | .error failure =>
    -- One recovery attempt; a second refusal of the registration is no transient failure.
    if failure.isGone && !s.recovered then c.recover w { s with recovered := true }
    else if failure.transient && s.retries < c.retries then retry deadline w failure s
    else .inl ⟨.error failure.error, s.sent, s.hookRetries⟩

/-- An invocation: the first registration, its request, and the loop. -/
def invoke (deadline : ℕ) (registered : Result Registration) (timestamp : Str)
    (world : Invocation → World) (fuel : ℕ) : Option Ended :=
  match registered with
  | .error e => some ⟨.error e, [], 0⟩
  | .ok reg =>
    match c.bodyOf timestamp reg with
    | .error e => some ⟨.error e, [], 0⟩
    | .ok body => loop (c.turn deadline world) fuel { reg, body }

end Client

/-! ### What was sent -/

namespace HookFailure

/-- The scanner does not know the registration if it says so by one of two status codes. -/
theorem isGone_iff {f : HookFailure} :
    f.isGone = true ↔ ∃ status, f.error = .httpStatus status ∧ (status = 404 ∨ status = 410) := by
  unfold isGone
  split
  · simp [*]
  · rename_i hother
    constructor
    · intro h
      cases h
    · rintro ⟨status, herror, -⟩
      exact (hother status herror).elim

/-- The failures that are retried. -/
theorem transient_iff {f : HookFailure} :
    f.transient = true ↔ f.error = .httpTransport .connect ∨
      ∃ status, f.error = .httpStatus status ∧ (status = 429 ∨ 500 ≤ status ∧ status < 600) := by
  unfold transient
  split
  · simp [*]
  · simp [*]
  · rename_i hconnect hstatus
    constructor
    · intro h
      cases h
    · rintro (herror | ⟨status, herror, -⟩)
      · exact (hconnect herror).elim
      · exact (hstatus status herror).elim

/-- A registration that is gone is no transient failure. -/
theorem isGone_of_transient {f : HookFailure} (h : f.transient = true) : f.isGone = false := by
  by_contra hgone
  rw [Bool.not_eq_false, isGone_iff] at hgone
  obtain ⟨status, herror, hgone⟩ := hgone
  rw [transient, herror] at h
  rcases hgone with rfl | rfl <;> simp at h

end HookFailure

namespace Sent

/-- The request failed because its registration is gone. -/
def isGone (x : Sent) : Bool :=
  match x.result with
  | .error f => f.isGone
  | .ok _ => false

/-- The request failed in a transient way. -/
def isTransient (x : Sent) : Bool :=
  match x.result with
  | .error f => f.transient
  | .ok _ => false

/-- An exchange that is sent again has failed. -/
theorem failed {x : Sent} (h : x.isGone = true ∨ x.isTransient = true) :
    ∃ f, x.result = .error f ∧ (f.isGone = true ∨ f.transient = true) := by
  unfold isGone isTransient at h
  cases hresult : x.result with
  | error f =>
    rw [hresult] at h
    exact ⟨f, rfl, h⟩
  | ok _ =>
    rw [hresult] at h
    simp at h

end Sent

/-- A list of elements of two kinds is no longer than both counts. -/
theorem length_le_countP {α : Type} {p q : α → Bool} {l : List α}
    (h : ∀ x ∈ l, p x = true ∨ q x = true) : l.length ≤ l.countP p + l.countP q := by
  induction l with
  | nil => simp
  | cons x l ih =>
    obtain ⟨hx, hl⟩ := List.forall_mem_cons.mp h
    have hlength := ih hl
    rw [List.length_cons, List.countP_cons, List.countP_cons]
    rcases hx with hx | hx
    · simp only [hx, if_true]
      omega
    · simp only [hx, if_true]
      omega

/-- The newer request is the older one again, unless the registration was gone. -/
def Again (newer older : Sent) : Prop :=
  older.isGone = false → newer.reg = older.reg ∧ newer.body = older.body

/-! ### The accounts of an invocation -/

namespace Client

/-- What an invocation has sent, before its next request. -/
structure Accounts (c : Client) (s : Invocation) : Prop where
  body : ∃ t, c.bodyOf t s.reg = .ok s.body
  bodies : ∀ x ∈ s.sent, ∃ t, c.bodyOf t x.reg = .ok x.body
  again : s.sent.IsChain Again
  next : ∀ x ∈ s.sent.head?, Again ⟨s.reg, s.body, .ok none⟩ x
  repeated : ∀ x ∈ s.sent, x.isGone = true ∨ x.isTransient = true
  gone : s.sent.countP Sent.isGone = s.recovered.toNat
  transient : s.sent.countP Sent.isTransient = s.retries
  counted : s.hookRetries = s.retries
  within : s.retries ≤ c.retries

/-- What an invocation has sent when it ends; every request but the newest was repeated. -/
structure Bounded (c : Client) (e : Ended) : Prop where
  requests : e.sent.length ≤ c.retries + 2
  repeated : ∀ x ∈ e.sent.tail, ∃ f, x.result = .error f ∧
    ((∃ status, f.error = .httpStatus status ∧ (status = 404 ∨ status = 410)) ∨
      f.error = .httpTransport .connect ∨
      ∃ status, f.error = .httpStatus status ∧ (status = 429 ∨ 500 ≤ status ∧ status < 600))
  again : e.sent.IsChain Again
  recoveries : e.sent.tail.countP Sent.isGone ≤ 1
  retries : e.sent.tail.countP Sent.isTransient ≤ c.retries
  bodies : ∀ x ∈ e.sent, ∃ t, c.bodyOf t x.reg = .ok x.body
  counted : e.hookRetries = e.sent.tail.countP Sent.isTransient

variable {c : Client}

/-- No more requests are sent than are accounted for. -/
theorem Accounts.length {s : Invocation} (h : c.Accounts s) :
    s.sent.length ≤ s.recovered.toNat + s.retries := by
  rw [← h.gone, ← h.transient]
  exact length_le_countP h.repeated

/-- The invocation may end after its next request. -/
theorem Accounts.ended {s : Invocation} (h : c.Accounts s) (outcome : Outcome)
    (result : Result Decision) :
    c.Bounded ⟨result, ⟨s.reg, s.body, outcome⟩ :: s.sent, s.hookRetries⟩ where
  requests := by
    have hlength := h.length
    have hrecovered := Bool.toNat_le s.recovered
    have hwithin := h.within
    rw [List.length_cons]
    omega
  repeated := by
    intro x hx
    obtain ⟨f, hf, hkind⟩ := Sent.failed (h.repeated x hx)
    rw [HookFailure.isGone_iff, HookFailure.transient_iff] at hkind
    exact ⟨f, hf, hkind⟩
  again := List.isChain_cons.mpr ⟨h.next, h.again⟩
  recoveries := by
    rw [List.tail_cons, h.gone]
    exact Bool.toNat_le s.recovered
  retries := by
    rw [List.tail_cons, h.transient]
    exact h.within
  bodies := List.forall_mem_cons.mpr ⟨h.body, h.bodies⟩
  counted := by
    rw [List.tail_cons, h.transient]
    exact h.counted

/-- The accounts after the one recovery. -/
theorem Accounts.recovered {s : Invocation} {failure : HookFailure} {reg : Registration}
    {body : Json} {t : Str} (h : c.Accounts s) (hfresh : s.recovered = false)
    (hgone : failure.isGone = true) (hbody : c.bodyOf t reg = .ok body) :
    c.Accounts { s with
      reg, body, recovered := true, sent := ⟨s.reg, s.body, .error failure⟩ :: s.sent } where
  body := ⟨t, hbody⟩
  bodies := List.forall_mem_cons.mpr ⟨h.body, h.bodies⟩
  again := List.isChain_cons.mpr ⟨h.next, h.again⟩
  next := by
    intro x hx hfailed
    rw [← Option.some.inj hx] at hfailed
    exact absurd (hgone.symm.trans hfailed) (by decide)
  repeated := List.forall_mem_cons.mpr ⟨.inl hgone, h.repeated⟩
  gone := by
    have hnone := h.gone
    rw [hfresh] at hnone
    simp [hnone, Sent.isGone, hgone]
  transient := by
    have htransient : failure.transient = false := by
      by_contra htransient
      rw [Bool.not_eq_false] at htransient
      rw [HookFailure.isGone_of_transient htransient] at hgone
      cases hgone
    simp [h.transient, Sent.isTransient, htransient]
  counted := h.counted
  within := h.within

/-- The accounts after a retry. -/
theorem Accounts.retried {s : Invocation} {failure : HookFailure} (h : c.Accounts s)
    (htransient : failure.transient = true) (hless : s.retries < c.retries) :
    c.Accounts { s with
      retries := s.retries + 1, hookRetries := s.hookRetries + 1
      sent := ⟨s.reg, s.body, .error failure⟩ :: s.sent } where
  body := h.body
  bodies := List.forall_mem_cons.mpr ⟨h.body, h.bodies⟩
  again := List.isChain_cons.mpr ⟨h.next, h.again⟩
  next := by
    intro x hx _
    rw [← Option.some.inj hx]
    exact ⟨rfl, rfl⟩
  repeated := List.forall_mem_cons.mpr ⟨.inr htransient, h.repeated⟩
  gone := by
    have hgone := HookFailure.isGone_of_transient htransient
    simp [h.gone, Sent.isGone, hgone]
  transient := by simp [h.transient, Sent.isTransient, htransient]
  counted := by
    show s.hookRetries + 1 = s.retries + 1
    rw [h.counted]
  within := hless

/-- The requests still allowed. -/
def allowance (c : Client) (s : Invocation) : ℕ := (!s.recovered).toNat + (c.retries - s.retries)

/-- **One turn** keeps the accounts, and uses up a request. -/
theorem turn_keeps (deadline : ℕ) (world : Invocation → World) (s : Invocation)
    (h : c.Accounts s) :
    TurnKeeps c.Accounts c.allowance c.Bounded s (c.turn deadline world s) := by
  unfold turn
  simp only
  cases c.outcome (world s) with
  | ok value =>
    cases value with
    | none => exact h.ended _ _
    | some value => exact h.ended _ _
  | error failure =>
    dsimp only
    split_ifs with hgone htransient
    · rw [Bool.and_eq_true, Bool.not_eq_true'] at hgone
      obtain ⟨hgone, hfresh⟩ := hgone
      unfold recover
      cases (world s).registered with
      | error e => exact h.ended _ _
      | ok reg =>
        dsimp only
        cases hbody : c.bodyOf (world s).timestamp reg with
        | error e => exact h.ended _ _
        | ok body =>
          refine ⟨h.recovered hfresh hgone hbody, ?_⟩
          -- The recovery itself is used up.
          show (!true).toNat + (c.retries - s.retries) < (!s.recovered).toNat + _
          rw [hfresh]
          simp
    · rw [Bool.and_eq_true, decide_eq_true_eq] at htransient
      obtain ⟨htransient, hless⟩ := htransient
      unfold retry
      dsimp only
      split_ifs
      · exact h.ended _ _
      · refine ⟨h.retried htransient hless, ?_⟩
        show (!s.recovered).toNat + (c.retries - (s.retries + 1)) < (!s.recovered).toNat + _
        omega
    · exact h.ended _ _

/-- **An invocation is bounded**, whatever it meets: it ends after at most two requests more than
    the retries, of which one follows a recovery and the others transient failures.  No other
    outcome is followed by a request, a retry sends the same request again, every body is that of
    its registration, and the retries are counted. -/
theorem invoke_bounded (c : Client) (deadline : ℕ) (registered : Result Registration)
    (timestamp : Str) (world : Invocation → World) :
    ∃ e, (∀ fuel, c.retries + 2 ≤ fuel →
        c.invoke deadline registered timestamp world fuel = some e) ∧ c.Bounded e := by
  have hnothing : ∀ e, c.Bounded ⟨.error e, [], 0⟩ := fun e =>
    ⟨by simp, by simp, .nil, by simp, by simp, by simp, rfl⟩
  unfold invoke
  cases registered with
  | error e => exact ⟨_, fun _ _ => rfl, hnothing e⟩
  | ok reg =>
    dsimp only
    cases hbody : c.bodyOf timestamp reg with
    | error e => exact ⟨_, fun _ _ => rfl, hnothing e⟩
    | ok body =>
      have hstart : c.Accounts { reg, body } :=
        ⟨⟨timestamp, hbody⟩, by simp, .nil, by simp, by simp, rfl, rfl, rfl, Nat.zero_le _⟩
      obtain ⟨e, hends, hbounded⟩ := loop_rule (c.turn_keeps deadline world) _ hstart
      refine ⟨e, fun fuel hfuel => hends fuel ?_, hbounded⟩
      show 1 + (c.retries - 0) < fuel
      omega

/-! ### The machine of concurrent invocations -/

/-- A failure as the machine of concurrent invocations tells it from others. -/
def failureKind : Outcome → Option Hooks.HookFailure
  | .ok _ => none
  | .error f =>
    match f.error with
    | .httpStatus status => some (.httpStatus status)
    | .httpTransport .connect => some .connect
    | _ => some .other

/-- A failure keeps its class. -/
theorem failureKind_error (f : HookFailure) :
    ∃ k, failureKind (.error f) = some k ∧ k.isGone = f.isGone ∧ k.transient = f.transient := by
  rcases f with ⟨error, pause⟩
  cases error with
  | httpTransport kind => cases kind <;> exact ⟨_, rfl, rfl, rfl⟩
  | _ => exact ⟨_, rfl, rfl, rfl⟩

end Client

end Hooks.Invoke

end MtaHooks
