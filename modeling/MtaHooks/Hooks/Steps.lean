import MtaHooks.Hooks.Disclosure
import MtaHooks.Hooks.CheckedResponse

namespace MtaHooks

/-!
# One step of the client

An invocation takes its steps between those of all others.  What is shared between them is the
registration with its lock, and the log; the invocation itself is moved by its own steps only.

* `ScannerClient.next_congr`, `ScannerClient.Moves.others` — a step is about one invocation;
* `ScannerClient.Moves.works`, `ScannerClient.Moves.safe` — what a step leaves of its invocation;
  an invocation does not panic.
-/

namespace Hooks

open Invoke (boundedJson HttpFailure)

/-! ### The client does not panic -/

/-- The chunks of a body are collected without a panic. -/
theorem collect_safe (max : ℕ) (cut : Option HttpFailure) (data : Bytes) (chunks : List Bytes) :
    (Invoke.collect max cut data chunks).Safe := by
  induction chunks generalizing data with
  | nil =>
    unfold Invoke.collect
    cases cut with
    | none => exact .ok _
    | some e => exact .error rfl
  | cons chunk chunks ih => exact .ite (fun _ => .error rfl) fun _ => ih _

/-- An answer is read without a panic. -/
theorem boundedJson_safe (fromSlice : Bytes → Option Json) (response : Invoke.Response)
    (max : ℕ) : (boundedJson fromSlice response max).Safe :=
  .bind (.rejectIf _ rfl) fun _ => .bind (.rejectIf _ rfl) fun _ =>
    .bind (collect_safe _ _ _ _) fun _ => .okOr _ rfl

/-- A URL is checked without a panic. -/
theorem Urls.validateUrl_safe {Url Origin : Type} (urls : Urls Url Origin)
    (insecureLoopback : Bool) (url : Url) : (urls.validateUrl insecureLoopback url).Safe :=
  .bind (.rejectIf _ rfl) fun _ => .rejectIf _ rfl

namespace ScannerClient

/-- The invocation that a step of the client is one of. -/
def Action.invocation : Action → Option ℕ
  | .evaluate i _ | .registered i _ _ | .register i _ _ _ | .hook i _ _ _ | .resume i
  | .recover i | .drop i => some i
  | .deregister => none

/-- The invocation that a step of `invoke` is one of. -/
def Action.invoking : Action → Option ℕ
  | .registered i _ _ | .register i _ _ _ | .hook i _ _ _ | .resume i | .recover i => some i
  | .evaluate _ _ | .drop _ | .deregister => none

/-- A step of an invocation is about it. -/
theorem Action.invoking_invocation {a : Action} {i : ℕ} (h : a.invoking = some i) :
    a.invocation = some i := by
  cases a with
  | evaluate _ _ => cases h
  | drop _ => cases h
  | deregister => cases h
  | registered _ _ _ => exact h
  | register _ _ _ _ => exact h
  | hook _ _ _ _ => exact h
  | resume _ => exact h
  | recover _ => exact h

variable {Url Origin : Type} {c : ScannerClient Url Origin} {tasks tasks' : ℕ → Task}
  {s t : Life Url} {a : Action}

/-- An invocation that is projected goes on, or ends with the error of its request. -/
theorem project_invocation (s : Life Url) (i : ℕ) (reg : Shared Url) (timestamp : Str) (x : Spent) :
    ((s.project c tasks i reg timestamp x).invocation i).isActive = true ∨
      ∃ e, (s.project c tasks i reg timestamp x).invocation i = .finished (.error e) ∧
        request c.b64 timestamp (tasks i).session (tasks i).stage reg.properties = .error e := by
  unfold Life.project
  split
  next e he => exact .inr ⟨e, s.move_self i _, he⟩
  next body _ =>
    refine .inl ?_
    rw [show (s.post c tasks i reg body x).invocation i = .exchanging reg body x from
      s.move_self i _]
    rfl

/-- The others stay where they are. -/
theorem project_others (s : Life Url) {i j : ℕ} (hj : j ≠ i) (reg : Shared Url) (timestamp : Str)
    (x : Spent) : (s.project c tasks i reg timestamp x).invocation j = s.invocation j := by
  unfold Life.project
  split
  next => exact s.move_of_ne hj _
  next => exact s.move_of_ne hj _

/-- A request about a callback fails without a panic. -/
theorem hook_safe {fromSlice : Bytes → Option Json} {limit : ℕ}
    {exchange : Except HttpFailure Invoke.Response} {failure : Invoke.HookFailure}
    (h : Invoke.hook fromSlice limit exchange = .error failure) :
    failure.error.isPanic = false := by
  unfold Invoke.hook at h
  split at h
  next e =>
    obtain rfl := Except.error.inj h
    rfl
  next response =>
    split_ifs at h
    · split at h
      next => cases h
      next e he =>
        obtain rfl := Except.error.inj h
        exact boundedJson_safe _ _ _ e he
    · obtain rfl := Except.error.inj h
      rfl

/-- The session of an invocation is one that waits for it. -/
structure Task.Waiting (x : Task) : Prop where
  reachable : x.session.Reachable
  pending : x.session.pending = some x.stage
  few : x.session.message.headers.length < 2 ^ 32

/-- The request of an invocation that waits is built without a panic. -/
theorem Task.Waiting.request_safe {x : Task} (h : x.Waiting) (b64 : Base64) (timestamp : Str)
    (properties : List Str) : (request b64 timestamp x.session x.stage properties).Safe := by
  have hvalid := h.reachable.valid
  have hstate := hvalid.awaits x.stage h.pending
  have hconnection : x.session.connection.isSome :=
    hvalid.connection (by rw [hstate]; cases x.stage <;> rfl)
  have hsender : x.stage = .endMessage → x.session.message.sender.isSome := by
    intro hstage
    rw [hvalid.sender, hstate, hstage]
    rfl
  intro e he
  rcases request_failsWith properties hconnection hsender e he with rfl | rfl
  · rfl
  · rfl

/-- The answer to an invocation that waits is translated without a panic. -/
theorem Task.Waiting.translate_safe {x : Task} (h : x.Waiting) (b64 : Base64) (value : Json) :
    (translate b64 value x.session x.stage).Safe :=
  (Checked.translate_agrees b64 value h.few x.stage).error

/-- An invocation that ends here ends without a panic. -/
theorem project_safe (s : Life Url) (i : ℕ) (reg : Shared Url) (timestamp : Str) (x : Spent)
    (hwaiting : (tasks i).Waiting) {result : Result Decision}
    (hfinished : (s.project c tasks i reg timestamp x).invocation i = .finished result) :
    result.Safe := by
  rcases project_invocation s i reg timestamp x with hactive | ⟨e, herror, he⟩
  · rw [hfinished] at hactive
    cases hactive
  · obtain rfl := Phase.finished.inj (hfinished.symm.trans herror)
    exact .error (hwaiting.request_safe _ _ _ e he)

/-- An invocation that is answered goes on, or ends with a result. -/
theorem answered_invocation (x : Task) (reg : Shared Url) (body : Json) (spent : Spent)
    (exchange : Except HttpFailure Invoke.Response) (now random : ℕ) :
    (c.answered x reg body spent exchange now random).isActive = true ∨
      ∃ result, c.answered x reg body spent exchange now random = .finished result := by
  unfold answered
  dsimp only
  split
  next => exact .inr ⟨_, rfl⟩
  next => exact .inr ⟨_, rfl⟩
  next =>
    split_ifs
    · exact .inl rfl
    · exact .inr ⟨_, rfl⟩
    · exact .inl rfl
    · exact .inr ⟨_, rfl⟩

/-- An invocation that is answered ends without a panic. -/
theorem answered_safe {x : Task} (hwaiting : x.Waiting) {reg : Shared Url} {body : Json}
    {spent : Spent} {exchange : Except HttpFailure Invoke.Response} {now random : ℕ}
    {result : Result Decision}
    (h : c.answered x reg body spent exchange now random = .finished result) : result.Safe := by
  unfold answered at h
  dsimp only at h
  split at h
  next value _ =>
    obtain rfl := Phase.finished.inj h
    exact hwaiting.translate_safe _ value
  next =>
    obtain rfl := Phase.finished.inj h
    exact .ok _
  next failure hhook =>
    have herror := hook_safe hhook
    split_ifs at h
    · obtain rfl := Phase.finished.inj h
      exact .error herror
    · obtain rfl := Phase.finished.inj h
      exact .error herror

/-- What a decision says: the answer to the request, translated; nothing if it has no content. -/
def Decides (c : ScannerClient Url Origin) (x : Task)
    (exchange : Except HttpFailure Invoke.Response) (decision : Decision) : Prop :=
  let limit := (encodedLimit x.session.limits + c.responseLimit) % (usizeMax + 1)
  Invoke.hook c.fromSlice limit exchange = .ok none ∧ decision = {} ∨
    ∃ value, Invoke.hook c.fromSlice limit exchange = .ok (some value) ∧
      translate c.b64 value x.session x.stage = .ok decision

/-- No invocation is decided before it is answered. -/
theorem project_undecided (s : Life Url) (i : ℕ) (reg : Shared Url) (timestamp : Str) (x : Spent)
    (decision : Decision) :
    (s.project c tasks i reg timestamp x).invocation i ≠ .finished (.ok decision) := by
  intro h
  rcases project_invocation s i reg timestamp x with hactive | ⟨e, herror, -⟩
  · rw [h] at hactive
    cases hactive
  · cases Phase.finished.inj (h.symm.trans herror)

/-- A decision is that of the answer. -/
theorem answered_decides {x : Task} {reg : Shared Url} {body : Json} {spent : Spent}
    {exchange : Except HttpFailure Invoke.Response} {now random : ℕ} {decision : Decision}
    (h : c.answered x reg body spent exchange now random = .finished (.ok decision)) :
    c.Decides x exchange decision := by
  unfold answered at h
  dsimp only at h
  split at h
  next value hvalue => exact .inr ⟨value, hvalue, Phase.finished.inj h⟩
  next hnone => exact .inl ⟨hnone, (Except.ok.inj (Phase.finished.inj h)).symm⟩
  next failure _ =>
    split_ifs at h
    · cases Phase.finished.inj h
    · cases Phase.finished.inj h

/-- An invocation that is answered does not send at once. -/
theorem answered_not_exchanging (x : Task) (reg : Shared Url) (body : Json) (spent : Spent)
    (exchange : Except HttpFailure Invoke.Response) (now random : ℕ) {reg' : Shared Url}
    {body' : Json} {spent' : Spent} :
    c.answered x reg body spent exchange now random ≠ .exchanging reg' body' spent' := by
  intro h
  unfold answered at h
  dsimp only at h
  split at h
  next => cases h
  next => cases h
  next => split_ifs at h

/-- An invocation that sends has its request in the log. -/
theorem project_posts {s : Life Url} {i : ℕ} {reg reg' : Shared Url} {timestamp : Str}
    {x x' : Spent} {body : Json}
    (h : (s.project c tasks i reg timestamp x).invocation i = .exchanging reg' body x') :
    .sent (c.hookRequest reg'.toRegistration (tasks i).requestId body) ∈
      (s.project c tasks i reg timestamp x).log := by
  unfold Life.project at h ⊢
  split at h
  next e _ => cases (s.move_self i _).symm.trans h
  next body' hbody =>
    obtain ⟨rfl, rfl, -⟩ := Phase.exchanging.inj ((s.move_self i _).symm.trans h)
    exact List.mem_cons_self

/-- An invocation that waits for an answer has sent its request. -/
def Posted (c : ScannerClient Url Origin) (tasks : ℕ → Task) (s : Life Url) : Prop :=
  ∀ i reg body x, s.invocation i = .exchanging reg body x →
    .sent (c.hookRequest reg.toRegistration (tasks i).requestId body) ∈ s.log

/-- The lock is held over a registration, and by nothing else. -/
def Locked (s : Life Url) : Prop := ∀ i, s.lock = some i → ∃ x, s.invocation i = .renewing x

/-- Nobody holds a lock that is free. -/
theorem Locked.free {s : Life Url} (h : s.lock = none) : Locked s := by
  intro i hi
  rw [h] at hi
  cases hi

/-- The lock stays as it is. -/
theorem project_lock (s : Life Url) (i : ℕ) (reg : Shared Url) (timestamp : Str) (x : Spent) :
    (s.project c tasks i reg timestamp x).lock = s.lock := by
  unfold Life.project
  split <;> rfl

/-- The expiry of a registration is read without a panic. -/
theorem confirmExpiry_safe (c : ScannerClient Url Origin) (expiry : Option Json) :
    (c.confirmExpiry expiry).Safe := by
  unfold confirmExpiry
  split
  next => exact .bind (.okOr _ rfl) fun _ => .bind (.okOr _ rfl) fun _ => .pure _
  next => exact .ok _

variable [DecidableEq Origin]

/-- A step reads the task of its own invocation only. -/
theorem next_congr (h : ∀ i, a.invocation = some i → tasks' i = tasks i) :
    c.next tasks' s a = c.next tasks s a := by
  cases a with
  | evaluate i now => rfl
  | registered i utc timestamp =>
    have hi := h i rfl
    simp only [next, Life.project, Life.post, hi]
  | register i exchange utc timestamp =>
    have hi := h i rfl
    simp only [next, Life.project, Life.post, hi]
  | hook i exchange now random =>
    have hi := h i rfl
    simp only [next, hi]
  | resume i =>
    have hi := h i rfl
    simp only [next, Life.post, hi]
  | recover i => rfl
  | drop i => rfl
  | deregister => rfl

/-- A step moves its own invocation only. -/
theorem Moves.others (h : Moves c tasks s a t) {j : ℕ} (hj : a.invocation ≠ some j) :
    t.invocation j = s.invocation j := by
  have hne : ∀ i, a.invocation = some i → j ≠ i := fun i hi heq => hj (heq ▸ hi)
  cases h with
  | begins hphase now => exact s.move_of_ne (hne _ rfl) _
  | found hphase hlock hreg hfresh timestamp => exact project_others s (hne _ rfl) _ _ _
  | renews hphase hlock hstale timestamp => exact s.move_of_ne (hne _ rfl) _
  | confirms hphase hregister timestamp => exact project_others (s.confirm _ _) (hne _ rfl) _ _ _
  | refused hphase hregister timestamp => exact s.move_of_ne (hne _ rfl) _
  | answers hphase exchange now random => exact s.move_of_ne (hne _ rfl) _
  | resumes hphase => exact s.move_of_ne (hne _ rfl) _
  | recovers hphase hlock => exact s.move_of_ne (hne _ rfl) _
  | drops hactive => exact s.move_of_ne (hne _ rfl) _
  | releases hlock => rfl
  | deregisters hlock hreg hurl henabled => rfl

/-- The origin of a URL is checked without a panic. -/
theorem sameOrigin_safe (c : ScannerClient Url Origin) (path : Str) : (c.sameOrigin path).Safe :=
  .bind (.okOr _ rfl) fun _ => .bind (c.urls.validateUrl_safe _ _) fun _ =>
    .bind (.rejectIf _ rfl) fun _ => .pure _

/-- The endpoint of a deregistration is read without a panic. -/
theorem confirmDeregistration_safe (c : ScannerClient Url Origin) (endpoint : Option Json) :
    (c.confirmDeregistration endpoint).Safe := by
  unfold confirmDeregistration
  split
  next => exact .bind (sameOrigin_safe c _) fun _ => .pure _
  next => exact .ok _
  next => exact .ok _
  next => exact .error rfl

/-- A registration fails without a panic. -/
theorem register_safe (c : ScannerClient Url Origin) (now : ℤ)
    (exchange : Except HttpFailure Invoke.Response) : (c.register now exchange).Safe := by
  have hexchange : Result.Safe (exchange.mapError Invoke.httpError) := by
    cases exchange with
    | error e => exact .error rfl
    | ok response => exact .ok _
  have hproperty : ∀ properties prop, (confirmProperty properties prop).Safe :=
    fun _ _ => .bind (.okOr _ rfl) fun _ => .pure _
  exact .bind hexchange fun _ => .bind (.rejectIf _ rfl) fun _ =>
    .bind (boundedJson_safe _ _ _) fun _ => .bind (.okOr _ rfl) fun _ =>
    .bind (.rejectIf _ rfl) fun _ => .bind (.rejectIf _ rfl) fun _ =>
    .bind (.okOr _ rfl) fun _ => .bind (.rejectIf _ rfl) fun _ => .bind (.okOr _ rfl) fun _ =>
    .bind (.foldlM hproperty _ _) fun _ => .bind (.rejectIf _ rfl) fun _ =>
    .bind (.okOr _ rfl) fun _ => .bind (sameOrigin_safe c _) fun _ =>
    .bind (confirmDeregistration_safe c _) fun _ => .bind (confirmExpiry_safe c _) fun _ =>
    .bind (.rejectIf _ rfl) fun _ => .pure _

/-- **A step of `invoke`** leaves its invocation under way, or finishes it. -/
theorem Moves.works (h : Moves c tasks s a t) {i : ℕ} (hi : a.invoking = some i) :
    (s.invocation i).isActive = true ∧ ((t.invocation i).isActive = true ∨
      ∃ result, t.invocation i = .finished result) := by
  have hactive : ∀ {p : Phase Url}, s.invocation i = p → p.isActive = true →
      (s.invocation i).isActive = true := fun hphase hp => hphase ▸ hp
  have hgoing : ∀ {p : Phase Url}, t.invocation i = p → p.isActive = true →
      (t.invocation i).isActive = true ∨ ∃ result, t.invocation i = .finished result :=
    fun hphase hp => .inl (hphase ▸ hp)
  have hproject : ∀ (s : Life Url) reg timestamp x,
      ((s.project c tasks i reg timestamp x).invocation i).isActive = true ∨
        ∃ result, (s.project c tasks i reg timestamp x).invocation i = .finished result := by
    intro s reg timestamp x
    rcases project_invocation s i reg timestamp x with hactive | ⟨e, herror, -⟩
    · exact .inl hactive
    · exact .inr ⟨_, herror⟩
  cases h with
  | begins hphase now => cases hi
  | drops hactive => cases hi
  | releases hlock => cases hi
  | deregisters hlock hreg hurl henabled => cases hi
  | found hphase hlock hreg hfresh timestamp =>
    obtain rfl := Option.some.inj hi
    exact ⟨hactive hphase rfl, hproject _ _ _ _⟩
  | renews hphase hlock hstale timestamp =>
    obtain rfl := Option.some.inj hi
    exact ⟨hactive hphase rfl, hgoing (s.move_self _ _) rfl⟩
  | confirms hphase hregister timestamp =>
    obtain rfl := Option.some.inj hi
    exact ⟨hactive hphase rfl, hproject _ _ _ _⟩
  | refused hphase hregister timestamp =>
    obtain rfl := Option.some.inj hi
    exact ⟨hactive hphase rfl, .inr ⟨_, s.move_self _ _⟩⟩
  | answers hphase exchange now random =>
    obtain rfl := Option.some.inj hi
    rw [s.move_self]
    exact ⟨hactive hphase rfl, answered_invocation _ _ _ _ _ _ _⟩
  | resumes hphase =>
    obtain rfl := Option.some.inj hi
    exact ⟨hactive hphase rfl, hgoing (s.move_self _ _) rfl⟩
  | recovers hphase hlock =>
    obtain rfl := Option.some.inj hi
    exact ⟨hactive hphase rfl, hgoing (s.move_self _ _) rfl⟩

/-- An invocation does not panic. -/
theorem Moves.safe (h : Moves c tasks s a t) {i : ℕ} (hi : a.invoking = some i)
    (hwaiting : (tasks i).Waiting) {result : Result Decision}
    (hfinished : t.invocation i = .finished result) : result.Safe := by
  have hgoing : ∀ {p : Phase Url}, t.invocation i = p → p.isActive = true → result.Safe := by
    intro p hphase hp
    rw [← hphase, hfinished] at hp
    cases hp
  cases h with
  | begins hphase now => cases hi
  | drops hactive => cases hi
  | releases hlock => cases hi
  | deregisters hlock hreg hurl henabled => cases hi
  | found hphase hlock hreg hfresh timestamp =>
    obtain rfl := Option.some.inj hi
    exact project_safe _ _ _ _ _ hwaiting hfinished
  | renews hphase hlock hstale timestamp =>
    obtain rfl := Option.some.inj hi
    exact hgoing (s.move_self _ _) rfl
  | confirms hphase hregister timestamp =>
    obtain rfl := Option.some.inj hi
    exact project_safe _ _ _ _ _ hwaiting hfinished
  | refused hphase hregister timestamp =>
    obtain rfl := Option.some.inj hi
    obtain rfl := Phase.finished.inj (hfinished.symm.trans (s.move_self _ _))
    exact .error (register_safe c _ _ _ hregister)
  | answers hphase exchange now random =>
    obtain rfl := Option.some.inj hi
    rw [s.move_self] at hfinished
    exact answered_safe hwaiting hfinished
  | resumes hphase =>
    obtain rfl := Option.some.inj hi
    exact hgoing (s.move_self _ _) rfl
  | recovers hphase hlock =>
    obtain rfl := Option.some.inj hi
    exact hgoing (s.move_self _ _) rfl

/-- **Only an answer decides.**  An invocation that ends with a decision was waiting for the
    answer to its request. -/
theorem Moves.decides (h : Moves c tasks s a t) {i : ℕ} (hi : a.invoking = some i)
    {decision : Decision} (hfinished : t.invocation i = .finished (.ok decision)) :
    ∃ exchange now random reg body x, a = .hook i exchange now random ∧
      s.invocation i = .exchanging reg body x ∧ c.Decides (tasks i) exchange decision := by
  cases h with
  | begins hphase now => cases hi
  | drops hactive => cases hi
  | releases hlock => cases hi
  | deregisters hlock hreg hurl henabled => cases hi
  | found hphase hlock hreg hfresh timestamp =>
    obtain rfl := Option.some.inj hi
    exact absurd hfinished (project_undecided _ _ _ _ _ _)
  | renews hphase hlock hstale timestamp =>
    obtain rfl := Option.some.inj hi
    cases hfinished.symm.trans (s.move_self _ _)
  | confirms hphase hregister timestamp =>
    obtain rfl := Option.some.inj hi
    exact absurd hfinished (project_undecided _ _ _ _ _ _)
  | refused hphase hregister timestamp =>
    obtain rfl := Option.some.inj hi
    cases Phase.finished.inj (hfinished.symm.trans (s.move_self _ _))
  | answers hphase exchange now random =>
    obtain rfl := Option.some.inj hi
    rw [s.move_self] at hfinished
    exact ⟨exchange, now, random, _, _, _, rfl, hphase, answered_decides hfinished⟩
  | resumes hphase =>
    obtain rfl := Option.some.inj hi
    cases hfinished.symm.trans (s.move_self _ _)
  | recovers hphase hlock =>
    obtain rfl := Option.some.inj hi
    cases hfinished.symm.trans (s.move_self _ _)

/-- An invocation that starts to wait for an answer has just sent its request. -/
theorem Moves.posts (h : Moves c tasks s a t) {i : ℕ} (hi : a.invocation = some i)
    {reg : Shared Url} {body : Json} {x : Spent}
    (hphase : t.invocation i = .exchanging reg body x) :
    .sent (c.hookRequest reg.toRegistration (tasks i).requestId body) ∈ t.log := by
  have helse : ∀ {p : Phase Url}, t.invocation i = p → p.holds = none →
      .sent (c.hookRequest reg.toRegistration (tasks i).requestId body) ∈ t.log := by
    intro p hp hnone
    rw [← hp, hphase] at hnone
    cases hnone
  cases h with
  | begins hidle now =>
    obtain rfl := Option.some.inj hi
    exact helse (s.move_self _ _) rfl
  | found hregistering hlock hreg hfresh timestamp =>
    obtain rfl := Option.some.inj hi
    exact project_posts hphase
  | renews hregistering hlock hstale timestamp =>
    obtain rfl := Option.some.inj hi
    exact helse (s.move_self _ _) rfl
  | confirms hrenewing hregister timestamp =>
    obtain rfl := Option.some.inj hi
    exact project_posts hphase
  | refused hrenewing hregister timestamp =>
    obtain rfl := Option.some.inj hi
    exact helse (s.move_self _ _) rfl
  | answers hexchanging exchange now random =>
    obtain rfl := Option.some.inj hi
    rw [s.move_self] at hphase
    exact absurd hphase (answered_not_exchanging _ _ _ _ _ _ _)
  | resumes hpausing =>
    obtain rfl := Option.some.inj hi
    obtain ⟨rfl, rfl, -⟩ := Phase.exchanging.inj ((s.move_self _ _).symm.trans hphase)
    exact List.mem_cons_self
  | recovers hrecovering hlock =>
    obtain rfl := Option.some.inj hi
    exact helse (s.move_self _ _) rfl
  | drops hactive =>
    obtain rfl := Option.some.inj hi
    exact helse (s.move_self _ _) rfl
  | releases hlock => cases hi
  | deregisters hlock hreg hurl henabled => cases hi

/-- Each action keeps the requests in the log. -/
theorem Posted.moves (h : Posted c tasks s) (hmoves : Moves c tasks s a t) : Posted c tasks t := by
  intro i reg body x hphase
  by_cases hi : a.invocation = some i
  · exact hmoves.posts hi hphase
  · rw [hmoves.others hi] at hphase
    exact hmoves.log.subset (h i reg body x hphase)

/-- **In every run** an invocation that sends has its request in the log. -/
theorem Reaches.posted {actions : List Action} (h : Reaches c tasks actions s) :
    Posted c tasks s := by
  obtain ⟨transport, start, startupWait, fuel, e, reg, world, -, -, -, hrun⟩ := h
  have hstart : Posted c tasks (.started e.log reg) := by
    intro i reg' body x hphase
    cases hphase
  exact Machine.exec_invariant_on hrun hstart fun s t a _ hnext hs => hs.moves (next_moves hnext)

/-! ### The lock -/

/-- An invocation that does not hold the lock moves. -/
theorem Locked.moved (h : Locked s) (hmoves : Moves c tasks s a t) (hlock : t.lock = s.lock)
    {i : ℕ} (hi : a.invocation = some i) {p : Phase Url} (hphase : s.invocation i = p)
    (hp : ∀ x, p ≠ .renewing x) : Locked t := by
  intro j hj
  rw [hlock] at hj
  obtain ⟨x, hx⟩ := h j hj
  refine ⟨x, (hmoves.others fun ha => ?_).trans hx⟩
  obtain rfl := Option.some.inj (hi.symm.trans ha)
  exact hp x (hphase.symm.trans hx)

/-- Each action keeps the holder of the lock registering. -/
theorem Locked.moves (h : Locked s) (hmoves : Moves c tasks s a t) : Locked t := by
  have hmoved := hmoves
  cases hmoves with
  | begins hphase now => exact h.moved hmoved rfl rfl hphase (by simp)
  | found hphase hlock hreg hfresh timestamp => exact .free ((project_lock _ _ _ _ _).trans hlock)
  | renews hphase hlock hstale timestamp =>
    intro i hi
    obtain rfl := Option.some.inj hi
    exact ⟨_, s.move_self _ _⟩
  | confirms hphase hregister timestamp => exact .free (project_lock _ _ _ _ _)
  | refused hphase hregister timestamp => exact .free rfl
  | answers hphase exchange now random =>
    exact h.moved hmoved rfl rfl hphase (by simp)
  | resumes hphase => exact h.moved hmoved rfl rfl hphase (by simp)
  | recovers hphase hlock => exact .free hlock
  | drops hactive =>
    intro j hj
    obtain ⟨hlock, hne⟩ := Option.filter_eq_some_iff.mp hj
    obtain ⟨x, hx⟩ := h j hlock
    exact ⟨x, (s.move_of_ne (of_decide_eq_true hne) _).trans hx⟩
  | releases hlock => exact .free hlock
  | deregisters hlock hreg hurl henabled => exact .free hlock

/-- **In every run** the holder of the lock is registering. -/
theorem Reaches.locked {actions : List Action} (h : Reaches c tasks actions s) : Locked s := by
  obtain ⟨transport, start, startupWait, fuel, e, reg, world, -, -, -, hrun⟩ := h
  exact Machine.exec_invariant_on hrun (Locked.free rfl) fun s t a _ hnext hs =>
    hs.moves (next_moves hnext)

end ScannerClient

end Hooks

end MtaHooks
