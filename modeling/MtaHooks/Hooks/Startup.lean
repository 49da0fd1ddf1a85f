import MtaHooks.Hooks.Register
import MtaHooks.Hooks.Mta

namespace MtaHooks

open BoundedLoop

/-!
# Startup of the client

`with_options` registers the client before it returns.  Transient failures are tried again with
growing pauses, while the pause ends before the startup wait does.  What is sent is kept in a
log, with the registrations that were accepted; the newest entry comes first.

* `ScannerClient.startup_bounded` — startup ends; how often and how long it tries, and when it
  gives up.
-/

namespace Hooks

open Invoke (HttpFailure Response backoff retryBase retryMax retryJitterMs)

/-! ### What is sent -/

/-- The methods of the requests that are sent. -/
inductive Method
  | post
  | delete
  deriving DecidableEq

/-- A request to the scanner. -/
structure HttpRequest (Url : Type) where
  method : Method
  url : Url
  authorization : Str
  registration : Option Str := none
  requestId : Option Str := none
  body : Option Json := none

/-- What is written down of a run. -/
inductive Entry (Url : Type)
  | sent (request : HttpRequest Url)
  | confirmed (now : ℤ) (reg : ScannerClient.Registration Url)

/-- The entry is a request. -/
def Entry.isSent {Url : Type} : Entry Url → Bool
  | .sent _ => true
  | .confirmed _ _ => false

/-- The entry is a request that ends no registration. -/
def Entry.isPost {Url : Type} : Entry Url → Bool
  | .sent request => request.method = .post
  | .confirmed _ _ => false

/-- The failures after which startup tries again. -/
def startupTransient : Error → Bool
  | .timeout | .httpTransport .connect | .httpTransport .timeout | .httpTransport .other => true
  | .httpStatus status => status == 429 || (500 ≤ status && status < 600)
  | _ => false

namespace ScannerClient

variable {Url Origin : Type} (c : ScannerClient Url Origin)

/-- The registration request. -/
def registerRequest : HttpRequest Url where
  method := .post
  url := c.registrationUrl
  authorization := c.authentication
  body := some c.registrationBody

/-- What an attempt meets. -/
structure Attempt where
  /-- The answer of the scanner, unless the timeout comes first. -/
  exchange : Option (Except HttpFailure Response)
  /-- The time of day when the answer is read. -/
  utc : ℤ
  /-- The instant at which the attempt has failed, in milliseconds. -/
  now : ℕ
  random : ℕ

/-- Startup before an attempt: the instant from which it runs, and the failures so far. -/
structure Startup (Url : Type) where
  attempt : ℕ := 0
  resumed : ℕ
  failures : List Error := []
  log : List (Entry Url) := []

/-- How startup ended, and the failures that were tried again. -/
structure Started (Url : Type) where
  result : Result (Registration Url)
  ended : ℕ
  failures : List Error
  log : List (Entry Url)

/-- The outcome of an attempt. -/
def attempted [DecidableEq Origin] (w : Attempt) : Result (Registration Url) :=
  match w.exchange with
  | none => .error .timeout
  | some exchange => c.register w.utc exchange

/-- One attempt and what follows from its outcome. -/
def startupTurn [DecidableEq Origin] (deadline : ℕ) (world : Startup Url → Attempt)
    (s : Startup Url) : Started Url ⊕ Startup Url :=
  let w := world s
  let log := .sent c.registerRequest :: s.log
  match c.attempted w with
  | .ok reg => .inl ⟨.ok reg, w.now, s.failures, .confirmed w.utc reg :: log⟩
  | .error e =>
    if startupTransient e then
      let attempt := s.attempt + 1
      let delay := backoff attempt none w.random
      if deadline ≤ w.now + delay then .inl ⟨.error e, w.now, s.failures, log⟩
      else .inr { attempt, resumed := w.now + delay, failures := e :: s.failures, log }
    else .inl ⟨.error e, w.now, s.failures, log⟩

/-- What is checked before anything is sent; `transport` is the answer of the transport
    options. -/
def checkOptions (transport : Result Unit) : Result Unit := do
  c.urls.validateUrl c.insecureLoopback c.registrationUrl
  rejectIf (c.stages = []) (.invalid "at least one hook stage is required")
  transport

/-- The client, registered with the scanner. -/
def withOptions [DecidableEq Origin] (transport : Result Unit) (start startupWait : ℕ)
    (world : Startup Url → Attempt) (fuel : ℕ) : Option (Started Url) :=
  match c.checkOptions transport with
  | .error e => some ⟨.error e, start, [], []⟩
  | .ok () => loop (c.startupTurn (start + startupWait) world) fuel { resumed := start }

/-! ### The pauses of startup -/

/-- The pause before the next attempt without jitter, in milliseconds. -/
def pause (attempt : ℕ) : ℕ := min (retryBase * 2 ^ min attempt 16) retryMax

/-- The first pauses together. -/
def pauses (n : ℕ) : ℕ := ((List.range n).map pause).sum

/-- One attempt more is one pause more. -/
theorem pauses_succ (n : ℕ) : pauses (n + 1) = pauses n + pause n := by
  simp [pauses, List.range_succ]

/-- No pause is shorter than the first. -/
theorem retryBase_le_pause (attempt : ℕ) : retryBase ≤ pause attempt := by
  refine le_min ?_ (by decide)
  calc retryBase = retryBase * 1 := (Nat.mul_one _).symm
    _ ≤ retryBase * 2 ^ min attempt 16 := Nat.mul_le_mul_left _ Nat.one_le_two_pow

/-- A pause with its jitter. -/
theorem backoff_bounds (attempt random : ℕ) :
    pause attempt ≤ backoff (attempt + 1) none random ∧
      backoff (attempt + 1) none random < retryMax + retryJitterMs := by
  have hjitter : random % retryJitterMs < retryJitterMs := Nat.mod_lt _ (by decide)
  have hcap : pause attempt ≤ retryMax := min_le_right _ _
  have hbackoff : backoff (attempt + 1) none random = pause attempt + random % retryJitterMs := by
    simp [backoff, pause]
  omega

/-! ### The accounts of startup -/

/-- What startup has done before an attempt. -/
structure Startup.Accounts (c : ScannerClient Url Origin) (start startupWait : ℕ)
    (s : Startup Url) : Prop where
  attempts : s.failures.length = s.attempt
  transient : ∀ e ∈ s.failures, startupTransient e = true
  paused : start + pauses s.attempt ≤ s.resumed
  within : s.attempt = 0 ∨ s.resumed < start + startupWait
  log : s.log = List.replicate s.attempt (.sent c.registerRequest)

/-- What startup has done when it ends. -/
structure Started.Bounded (c : ScannerClient Url Origin) (start startupWait : ℕ)
    (e : Started Url) : Prop where
  /-- Every failure but the last is transient. -/
  transient : ∀ f ∈ e.failures, startupTransient f = true
  /-- The pauses fit in the startup wait. -/
  paused : e.failures = [] ∨ pauses e.failures.length < startupWait
  /-- What is sent. -/
  sent : ∀ entry ∈ e.log, entry = .sent c.registerRequest ∨
    ∃ now reg, entry = .confirmed now reg ∧ e.result = .ok reg ∧ c.Confirmed now reg
  requests : e.log.countP Entry.isSent ≤ e.failures.length + 1
  /-- Startup succeeds with what the scanner confirmed last. -/
  confirmed : ∀ reg, e.result = .ok reg → ∃ now earlier, e.log = .confirmed now reg :: earlier
  /-- Startup gives up on a transient failure only when the next pause may be too long. -/
  givesUp : ∀ f, e.result = .error f → startupTransient f = true → e.log ≠ [] →
    start + startupWait < e.ended + retryMax + retryJitterMs

variable {c}

/-- An attempt that succeeds confirms its registration. -/
theorem attempted_ok [DecidableEq Origin] {w : Attempt} {reg : Registration Url}
    (h : c.attempted w = .ok reg) : c.Confirmed w.utc reg := by
  unfold attempted at h
  split at h
  next => cases h
  next => exact register_confirmed h

variable {start startupWait : ℕ}

/-- Before the first attempt there is nothing to account for. -/
theorem Startup.Accounts.initial : Startup.Accounts c start startupWait { resumed := start } where
  attempts := rfl
  transient := fun _ he => absurd he List.not_mem_nil
  paused := le_rfl
  within := .inl rfl
  log := rfl

/-- The pauses so far fit in the startup wait. -/
theorem Startup.Accounts.paused_within {s : Startup Url} (h : s.Accounts c start startupWait) :
    s.failures = [] ∨ pauses s.failures.length < startupWait := by
  rcases h.within with hnone | hwithin
  · exact .inl (List.length_eq_zero_iff.mp (h.attempts.trans hnone))
  · rw [h.attempts]
    have hpaused := h.paused
    exact .inr (by omega)

/-- All that is sent is the request to register. -/
theorem Startup.Accounts.sent {s : Startup Url} (h : s.Accounts c start startupWait) :
    ∀ entry ∈ Entry.sent c.registerRequest :: s.log, entry = .sent c.registerRequest := by
  intro entry hentry
  rw [h.log] at hentry
  rcases List.mem_cons.mp hentry with rfl | hentry
  · rfl
  · exact List.eq_of_mem_replicate hentry

/-- There is one request for each failure. -/
theorem Startup.Accounts.requests {s : Startup Url} (h : s.Accounts c start startupWait) :
    s.log.countP Entry.isSent = s.failures.length := by
  rw [h.log, h.attempts, List.countP_replicate]
  rfl

/-- Startup may end with the failure of an attempt. -/
theorem Startup.Accounts.failed {s : Startup Url} (h : s.Accounts c start startupWait)
    {e : Error} {now : ℕ}
    (hgivesUp : startupTransient e = true → start + startupWait < now + retryMax + retryJitterMs) :
    Started.Bounded c start startupWait
      ⟨.error e, now, s.failures, .sent c.registerRequest :: s.log⟩ where
  transient := h.transient
  paused := h.paused_within
  sent := fun entry hentry => .inl (h.sent entry hentry)
  requests := by
    rw [List.countP_cons, h.requests]
    exact le_rfl
  confirmed := by
    intro reg hreg
    cases hreg
  givesUp := fun f hf htransient _ => by
    obtain rfl := Except.error.inj hf
    exact hgivesUp htransient

/-- **One attempt** keeps the accounts, and uses up some of the wait. -/
theorem startupTurn_keeps [DecidableEq Origin] {world : Startup Url → Attempt}
    (hclock : ∀ s, s.resumed ≤ (world s).now) (s : Startup Url)
    (h : s.Accounts c start startupWait) :
    TurnKeeps (Startup.Accounts c start startupWait)
      (fun s => start + startupWait - s.resumed) (Started.Bounded c start startupWait) s
      (c.startupTurn (start + startupWait) world s) := by
  have hnow := hclock s
  unfold startupTurn
  dsimp only
  cases hattempted : c.attempted (world s) with
  | ok reg =>
    have hconfirmed := attempted_ok hattempted
    refine ⟨h.transient, h.paused_within, fun entry hentry => ?_, ?_, fun reg' hreg => ?_,
      fun f hf => ?_⟩
    · rcases List.mem_cons.mp hentry with rfl | hentry
      · exact .inr ⟨_, reg, rfl, rfl, hconfirmed⟩
      · exact .inl (h.sent entry hentry)
    · rw [List.countP_cons, List.countP_cons, h.requests]
      exact le_rfl
    · obtain rfl := Except.ok.inj hreg
      exact ⟨_, _, rfl⟩
    · cases hf
  | error e =>
    dsimp only
    obtain ⟨hpause, hcap⟩ := backoff_bounds s.attempt (world s).random
    split_ifs with htransient hlate
    · exact h.failed fun _ => by omega
    · have hpositive := retryBase_le_pause s.attempt
      have hbase : 0 < retryBase := by decide
      refine ⟨⟨congrArg Nat.succ h.attempts, List.forall_mem_cons.mpr ⟨htransient, h.transient⟩, ?_,
        .inr (by dsimp only; omega), ?_⟩, by dsimp only; omega⟩
      · have hpaused := h.paused
        rw [pauses_succ]
        dsimp only
        omega
      · rw [h.log]
        exact List.replicate_succ.symm
    · exact h.failed fun htransient' => absurd htransient' htransient

/-- A client that cannot be built sends nothing. -/
theorem Started.Bounded.unsent (c : ScannerClient Url Origin) (start startupWait : ℕ) (e : Error) :
    Started.Bounded c start startupWait ⟨.error e, start, [], []⟩ where
  transient := fun _ hf => absurd hf List.not_mem_nil
  paused := .inl rfl
  sent := fun _ hentry => absurd hentry List.not_mem_nil
  requests := Nat.zero_le _
  confirmed := by
    intro reg hreg
    cases hreg
  givesUp := fun _ _ _ hlog => absurd rfl hlog

/-- Whatever startup has ended with is within its bounds. -/
theorem withOptions_bounded [DecidableEq Origin] {transport : Result Unit} {fuel : ℕ}
    {world : Startup Url → Attempt} (hclock : ∀ s, s.resumed ≤ (world s).now) {e : Started Url}
    (h : c.withOptions transport start startupWait world fuel = some e) :
    Started.Bounded c start startupWait e := by
  unfold withOptions at h
  split at h
  next err _ =>
    obtain rfl := Option.some.inj h
    exact .unsent c start startupWait err
  next =>
    have hstart : Startup.Accounts c start startupWait { resumed := start } := .initial
    exact loop_result (fun s hs => startupTurn_keeps hclock s hs) hstart h

/-- The scheme and the authority of a URL with a path. -/
def sampleOrigin (url : Str) : Str :=
  let (scheme, rest) := (splitOnce (byte ':') url).getD (url, [])
  scheme ++ ascii "://" ++ (rest.drop 2).takeWhile (· ≠ byte '/')

/-- URLs without user, port and query, joined with absolute paths and URLs. -/
def sampleUrls : Urls Str Str where
  join url path := if path.head? = some (byte '/') then some (sampleOrigin url ++ path) else path
  scheme url := url.takeWhile (· ≠ byte ':')
  host url := some ((sampleOrigin url).drop ((url.takeWhile (· ≠ byte ':')).length + 3))
  username _ := []
  password _ := none
  fragment _ := none
  origin := sampleOrigin

/-- The answer to a registration. -/
def sampleAnswer : Json :=
  .ofFields [("registrationId", .string "r-1"), ("status", .string "active"),
    ("negotiated", .ofFields [("serialization", .string "json"),
      ("inbound", .ofFields [("stages", .array [.string "data"]),
        ("properties", .array [.string "/stage", .string "/action", .string "/envelope"])])]),
    ("hookEndpoint", .string "/hook"),
    ("endpoints", .ofFields [("deregistration", .string "/registration/r-1")])]

/-- A client that knows the texts of two answers. -/
def sampleClient : ScannerClient Str Str where
  urls := sampleUrls
  b64 := Sample.base64
  fromSlice data :=
    if data = ascii "registered" then some sampleAnswer
    else if data = ascii "{}" then some (.object []) else none
  parseRfc3339 _ := none
  registrationUrl := "https://scanner.example/register"
  authentication := "Bearer synthetic"
  name := "bridge"
  timeout := 20000
  insecureLoopback := false
  stages := [.endMessage]

/-- The response with a registration. -/
def sampleCreated : Response :=
  { status := 201, contentType := some "application/json", chunks := [ascii "registered"] }

/-- The scanner is not ready at first. -/
def sampleWorld (s : Startup Str) : Attempt where
  exchange := some (.ok (if s.attempt = 0 then { status := 503 } else sampleCreated))
  utc := 0
  now := s.resumed + 20
  random := 7

end ScannerClient

end Hooks

end MtaHooks
