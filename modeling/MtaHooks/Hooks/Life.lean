import MtaHooks.Hooks.Startup

namespace MtaHooks

/-!
# The life of the client

A registered client and all its invocations, side by side: `evaluate`, the lock and the cache of
`registered`, the requests and pauses of `invoke`, `deregister`.  A step is what one of them does
between two awaits; a request is logged when it is handed to the HTTP client.  The clocks, the
jitter and the answers of the scanner come with the steps.

* `ScannerClient.next_moves` — what a step can do.
-/

namespace Hooks

open Invoke (HttpFailure Response HookFailure backoff hook)

namespace ScannerClient

/-- What an invocation is about. -/
structure Task where
  session : Session
  stage : Stage
  requestId : Str

/-- A registration behind an `Arc`, with the number of its allocation. -/
structure Shared (Url : Type) extends Registration Url where
  arc : ℕ

/-- What an invocation has used up, and its deadline in milliseconds. -/
structure Spent extends Attempts where
  deadline : ℕ

/-- Where an invocation is. -/
inductive Phase (Url : Type)
  | idle
  /-- Before the lock of `registered`. -/
  | registering (x : Spent)
  /-- In `registered`, with the lock, while the scanner registers the client. -/
  | renewing (x : Spent)
  /-- The hook request is sent. -/
  | exchanging (reg : Shared Url) (body : Json) (x : Spent)
  /-- Before the request is sent again. -/
  | pausing (reg : Shared Url) (body : Json) (x : Spent)
  /-- The request failed on the registration; before the lock of the recovery. -/
  | recovering (reg : Shared Url) (x : Spent)
  | finished (result : Result Decision)
  | dropped

/-- The invocation is under way. -/
def Phase.isActive {Url : Type} : Phase Url → Bool
  | .idle | .finished _ | .dropped => false
  | _ => true

/-- The client: the registration behind the mutex, the invocation that holds the mutex, the
    number of registrations so far, the invocations and the log. -/
structure Life (Url : Type) where
  registration : Option (Shared Url)
  lock : Option ℕ
  created : ℕ
  invocation : ℕ → Phase Url
  log : List (Entry Url)

/-- One step of one invocation, or of `deregister`. -/
inductive Action
  | evaluate (i : ℕ) (now : ℕ)
  | registered (i : ℕ) (utc : ℤ) (timestamp : Str)
  | register (i : ℕ) (exchange : Except HttpFailure Response) (utc : ℤ) (timestamp : Str)
  | hook (i : ℕ) (exchange : Except HttpFailure Response) (now random : ℕ)
  | resume (i : ℕ)
  | recover (i : ℕ)
  | drop (i : ℕ)
  | deregister

/-- A registration that expires within this time is not used any more, in nanoseconds. -/
def expiryMargin : ℤ := 5000000000

variable {Url Origin : Type} (c : ScannerClient Url Origin) (tasks : ℕ → Task)

/-- The registration does not expire soon. -/
def Registration.isFresh (reg : Registration Url) (utc : ℤ) : Bool :=
  reg.expires.all fun e => utc + expiryMargin < e

/-- The request of an invocation. -/
def hookRequest (reg : Registration Url) (requestId : Str) (body : Json) : HttpRequest Url where
  method := .post
  url := reg.endpoint
  authorization := c.authentication
  registration := some reg.id
  requestId := some requestId
  body := some body

/-- The request that ends a registration. -/
def deregisterRequest (reg : Registration Url) (url : Url) : HttpRequest Url where
  method := .delete
  url := url
  authorization := c.authentication
  registration := some reg.id

/-- The answer to a hook request: a decision, the one recovery, a pause before a retry that is
    in time, or an error. -/
def answered (task : Task) (reg : Shared Url) (body : Json) (x : Spent)
    (exchange : Except HttpFailure Response) (now random : ℕ) : Phase Url :=
  let limit := (encodedLimit task.session.limits + c.responseLimit) % (usizeMax + 1)
  match Invoke.hook c.fromSlice limit exchange with
  | .ok (some value) => .finished (translate c.b64 value task.session task.stage)
  | .ok none => .finished (.ok {})
  | .error failure =>
    -- One recovery attempt; a second refusal of the registration is no transient failure.
    if failure.isGone && !x.recovered then .recovering reg { x with recovered := true }
    else if failure.transient && x.retries < c.retries then
      let retries := x.retries + 1
      if x.deadline ≤ now + backoff retries failure.retryAfter random then
        .finished (.error failure.error)
      else .pausing reg body { x with retries }
    else .finished (.error failure.error)

/-- The cache after a recovery: it is cleared if its registration has the failed one's id. -/
def recovered (cached : Option (Shared Url)) (reg : Shared Url) : Option (Shared Url) :=
  if cached.any fun r => r.id = reg.id then none else cached

namespace Life

variable (s : Life Url)

/-- The client after startup. -/
def started (log : List (Entry Url)) (reg : Registration Url) : Life Url where
  registration := some { reg with arc := 0 }
  lock := none
  created := 1
  invocation := fun _ => .idle
  log := log

/-- An invocation goes on to another phase. -/
def move (i : ℕ) (p : Phase Url) : Life Url :=
  { s with invocation := Function.update s.invocation i p }

/-- It is there then. -/
@[simp] theorem move_self (i : ℕ) (p : Phase Url) : (s.move i p).invocation i = p := by
  simp [move]

/-- The others stay where they are. -/
theorem move_of_ne {i j : ℕ} (h : j ≠ i) (p : Phase Url) :
    (s.move i p).invocation j = s.invocation j := by
  simp [move, h]

/-- Log a request. -/
def send (request : HttpRequest Url) : Life Url := { s with log := .sent request :: s.log }

/-- Send a hook request. -/
def post (i : ℕ) (reg : Shared Url) (body : Json) (x : Spent) : Life Url :=
  (s.move i (.exchanging reg body x)).send
    (c.hookRequest reg.toRegistration (tasks i).requestId body)

/-- Build the request for a registration and send it. -/
def project (i : ℕ) (reg : Shared Url) (timestamp : Str) (x : Spent) : Life Url :=
  match request c.b64 timestamp (tasks i).session (tasks i).stage reg.properties with
  | .error e => s.move i (.finished (.error e))
  | .ok body => s.post c tasks i reg body x

/-- A registration is accepted: it is cached, and the lock is released. -/
def confirm (utc : ℤ) (reg : Registration Url) : Life Url :=
  { s with
    registration := some { reg with arc := s.created }
    lock := none
    created := s.created + 1
    log := .confirmed utc reg :: s.log }

end Life

variable [DecidableEq Origin]

open Life in
/-- The next state. -/
def next (s : Life Url) : Action → Option (Life Url)
  | .evaluate i now =>
    match s.invocation i with
    | .idle => some (s.move i (.registering { deadline := now + c.timeout }))
    | _ => none
  | .registered i utc timestamp =>
    match s.invocation i, s.lock with
    | .registering x, none =>
      match s.registration.filter fun reg => reg.isFresh utc with
      | some reg => some (s.project c tasks i reg timestamp x)
      -- The guard is held over the registration.
      | none => some { (s.move i (.renewing x)).send c.registerRequest with lock := some i }
    | _, _ => none
  | .register i exchange utc timestamp =>
    match s.invocation i with
    | .renewing x =>
      match c.register utc exchange with
      | .ok reg =>
        some ((s.confirm utc reg).project c tasks i { reg with arc := s.created } timestamp x)
      | .error e => some { s.move i (.finished (.error e)) with lock := none }
    | _ => none
  | .hook i exchange now random =>
    match s.invocation i with
    | .exchanging reg body x =>
      some (s.move i (c.answered (tasks i) reg body x exchange now random))
    | _ => none
  | .resume i =>
    match s.invocation i with
    | .pausing reg body x => some (s.post c tasks i reg body x)
    | _ => none
  | .recover i =>
    match s.invocation i, s.lock with
    | .recovering reg x, none => some { s.move i (.registering x) with
        registration := recovered s.registration reg }
    | _, _ => none
  -- A deadline or a connection that is gone; a dropped invocation drops its guard.
  | .drop i =>
    if (s.invocation i).isActive then
      some { s.move i .dropped with lock := s.lock.filter (· ≠ i) }
    else none
  | .deregister =>
    if s.lock = none then
      let released := { s with registration := none }
      match s.registration with
      | none => some released
      | some reg =>
        match reg.deregistration with
        | none => some released
        | some url =>
          if c.deregister then some (released.send (c.deregisterRequest reg.toRegistration url))
          else some released
    else none

/-- What a step can do. -/
inductive Moves (s : Life Url) : Action → Life Url → Prop
  | begins {i : ℕ} (hphase : s.invocation i = .idle) (now : ℕ) :
    Moves s (.evaluate i now) (s.move i (.registering { deadline := now + c.timeout }))
  | found {i : ℕ} {x : Spent} {reg : Shared Url} {utc : ℤ}
    (hphase : s.invocation i = .registering x) (hlock : s.lock = none)
    (hreg : s.registration = some reg) (hfresh : reg.isFresh utc = true) (timestamp : Str) :
    Moves s (.registered i utc timestamp) (s.project c tasks i reg timestamp x)
  | renews {i : ℕ} {x : Spent} {utc : ℤ} (hphase : s.invocation i = .registering x)
    (hlock : s.lock = none)
    (hstale : ∀ reg, s.registration = some reg → reg.isFresh utc = false) (timestamp : Str) :
    Moves s (.registered i utc timestamp)
      { (s.move i (.renewing x)).send c.registerRequest with lock := some i }
  | confirms {i : ℕ} {x : Spent} {exchange : Except HttpFailure Response} {utc : ℤ}
    {reg : Registration Url} (hphase : s.invocation i = .renewing x)
    (hregister : c.register utc exchange = .ok reg) (timestamp : Str) :
    Moves s (.register i exchange utc timestamp)
      ((s.confirm utc reg).project c tasks i { reg with arc := s.created } timestamp x)
  | refused {i : ℕ} {x : Spent} {exchange : Except HttpFailure Response} {utc : ℤ} {e : Error}
    (hphase : s.invocation i = .renewing x) (hregister : c.register utc exchange = .error e)
    (timestamp : Str) :
    Moves s (.register i exchange utc timestamp)
      { s.move i (.finished (.error e)) with lock := none }
  | answers {i : ℕ} {reg : Shared Url} {body : Json} {x : Spent}
    (hphase : s.invocation i = .exchanging reg body x) (exchange : Except HttpFailure Response)
    (now random : ℕ) :
    Moves s (.hook i exchange now random)
      (s.move i (c.answered (tasks i) reg body x exchange now random))
  | resumes {i : ℕ} {reg : Shared Url} {body : Json} {x : Spent}
    (hphase : s.invocation i = .pausing reg body x) :
    Moves s (.resume i) (s.post c tasks i reg body x)
  | recovers {i : ℕ} {reg : Shared Url} {x : Spent} (hphase : s.invocation i = .recovering reg x)
    (hlock : s.lock = none) :
    Moves s (.recover i)
      { s.move i (.registering x) with registration := recovered s.registration reg }
  | drops {i : ℕ} (hactive : (s.invocation i).isActive = true) :
    Moves s (.drop i) { s.move i .dropped with lock := s.lock.filter (· ≠ i) }
  | releases (hlock : s.lock = none) : Moves s .deregister { s with registration := none }
  | deregisters {reg : Shared Url} {url : Url} (hlock : s.lock = none)
    (hreg : s.registration = some reg) (hurl : reg.deregistration = some url)
    (henabled : c.deregister = true) :
    Moves s .deregister (({ s with registration := none } : Life Url).send
      (c.deregisterRequest reg.toRegistration url))

variable {c tasks}

/-- An action does one of these. -/
theorem next_moves {s t : Life Url} {a : Action} (h : c.next tasks s a = some t) :
    Moves c tasks s a t := by
  cases a with
  | evaluate i now =>
    simp only [next] at h
    split at h
    next hphase =>
      obtain rfl := Option.some.inj h
      exact .begins hphase now
    next => cases h
  | registered i utc timestamp =>
    simp only [next] at h
    split at h
    next x hphase hlock =>
      split at h
      next reg hfilter =>
        obtain rfl := Option.some.inj h
        obtain ⟨hreg, hfresh⟩ := Option.filter_eq_some_iff.mp hfilter
        exact .found hphase hlock hreg hfresh timestamp
      next hfilter =>
        obtain rfl := Option.some.inj h
        have hstale : ∀ reg, s.registration = some reg → reg.isFresh utc = false := by
          intro reg hreg
          rw [hreg] at hfilter
          by_contra hfresh
          rw [Option.filter_some, if_pos (by simpa using hfresh)] at hfilter
          cases hfilter
        exact .renews hphase hlock hstale timestamp
    next => cases h
  | register i exchange utc timestamp =>
    simp only [next] at h
    split at h
    next x hphase =>
      split at h
      next reg hregister =>
        obtain rfl := Option.some.inj h
        exact .confirms hphase hregister timestamp
      next e hregister =>
        obtain rfl := Option.some.inj h
        exact .refused hphase hregister timestamp
    next => cases h
  | hook i exchange now random =>
    simp only [next] at h
    split at h
    next reg body x hphase =>
      obtain rfl := Option.some.inj h
      exact .answers hphase exchange now random
    next => cases h
  | resume i =>
    simp only [next] at h
    split at h
    next reg body x hphase =>
      obtain rfl := Option.some.inj h
      exact .resumes hphase
    next => cases h
  | recover i =>
    simp only [next] at h
    split at h
    next reg x hphase hlock =>
      obtain rfl := Option.some.inj h
      exact .recovers hphase hlock
    next => cases h
  | drop i =>
    simp only [next] at h
    split at h
    next hactive =>
      obtain rfl := Option.some.inj h
      exact .drops hactive
    next => cases h
  | deregister =>
    simp only [next] at h
    split at h
    next hlock =>
      split at h
      next =>
        obtain rfl := Option.some.inj h
        exact .releases hlock
      next reg hreg =>
        split at h
        next =>
          obtain rfl := Option.some.inj h
          exact .releases hlock
        next url hurl =>
          split at h
          next henabled =>
            obtain rfl := Option.some.inj h
            exact .deregisters hlock hreg hurl henabled
          next =>
            obtain rfl := Option.some.inj h
            exact .releases hlock
    next => cases h

end ScannerClient

end Hooks

end MtaHooks
