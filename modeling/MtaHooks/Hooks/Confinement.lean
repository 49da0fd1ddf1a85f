import MtaHooks.Hooks.Life

namespace MtaHooks

/-!
# What leaves the client, and where it goes

The log of a client has every request of its life, from startup on, in whatever order its
invocations run.

* `request_keys` — the body of a request has the confirmed properties and nothing else;
* `ScannerClient.confined` — credentials stay with the origin of the registration URL, and every
  request is one of a registration that the scanner has confirmed before.
-/

namespace Hooks

open Invoke (HttpFailure)

/-! ### The keys of a request -/

/-- A field that is inserted is among the fields. -/
theorem mem_keys_insertField {k key : Str} {value : Json} {fields : List (Str × Json)} :
    k ∈ (Json.insertField key value fields).map Prod.fst ↔ k = key ∨ k ∈ fields.map Prod.fst := by
  induction fields with
  | nil => simp [Json.insertField]
  | cons field fields ih =>
    rw [Json.insertField]
    split_ifs with hkey
    · simp [hkey]
    · simp
    · rw [List.map_cons, List.mem_cons, ih, List.map_cons, List.mem_cons]
      exact or_left_comm

/-- **The confirmed properties and nothing else** are in the body of a request. -/
theorem request_keys {b64 : Base64} {timestamp : Str} {s : Session} {stage : Stage}
    {properties : List Str} {body : Json}
    (h : request b64 timestamp s stage properties = .ok body) :
    ∃ fields, body = .object fields ∧
      ∀ k, k ∈ fields.map Prod.fst ↔ ∃ p ∈ properties, k = p.drop 1 := by
  obtain ⟨connection, -, h⟩ := okOr_bind_ok.mp h
  obtain ⟨fields, hfields, h⟩ := Result.bind_ok_iff.mp h
  obtain rfl := Except.ok.inj h
  refine ⟨fields, rfl, ?_⟩
  -- Each property adds its key to those of the properties before it.
  have hkeys : ∀ k, k ∈ fields.map Prod.fst ↔
      k ∈ properties.foldl (fun keys p => p.drop 1 :: keys) [] := by
    refine Result.foldlM_simulates (R := fun (fields : List (Str × Json)) (keys : List Str) =>
      ∀ k, k ∈ fields.map Prod.fst ↔ k ∈ keys) hfields (fun _ => Iff.rfl) ?_
    intro before keys p _ after hbefore hstep k
    obtain ⟨value, -, hstep⟩ := Result.bind_ok_iff.mp hstep
    obtain rfl := Except.ok.inj hstep
    rw [mem_keys_insertField, hbefore, List.mem_cons]
  intro k
  rw [hkeys, List.foldl_flip_cons_eq_append]
  simp [eq_comm]

namespace ScannerClient

variable {Url Origin : Type} (c : ScannerClient Url Origin) (tasks : ℕ → Task)

/-- The scanner has confirmed the registration. -/
def Known (log : List (Entry Url)) (reg : Registration Url) : Prop :=
  ∃ now, .confirmed now reg ∈ log

/-- The registration is the last one that was confirmed, and is not deregistered. -/
def Current (log : List (Entry Url)) (reg : Registration Url) : Prop :=
  ∃ later now earlier, log = later ++ .confirmed now reg :: earlier ∧
    ∀ entry ∈ later, entry.isPost = true

/-- What may be sent after what is logged: a registration; the body of an invocation, to the
    endpoint and under the id of a confirmed registration; or the end of the current one. -/
inductive Allowed (log : List (Entry Url)) : HttpRequest Url → Prop
  | register : Allowed log c.registerRequest
  | hook {reg : Registration Url} {i : ℕ} {timestamp : Str} {body : Json} (hknown : Known log reg)
    (hbody : request c.b64 timestamp (tasks i).session (tasks i).stage reg.properties = .ok body) :
    Allowed log (c.hookRequest reg (tasks i).requestId body)
  | deregister {reg : Registration Url} {url : Url} (hcurrent : Current log reg)
    (hurl : reg.deregistration = some url) : Allowed log (c.deregisterRequest reg url)

/-- An entry that may follow what is logged. -/
def Follows (log : List (Entry Url)) : Entry Url → Prop
  | .sent request => Allowed c tasks log request
  | .confirmed now reg => c.Confirmed now reg

/-- Every entry may follow those before it. -/
def Justified : List (Entry Url) → Prop
  | [] => True
  | entry :: log => Follows c tasks log entry ∧ Justified log

/-- A current registration is a known one. -/
theorem Current.known {log : List (Entry Url)} {reg : Registration Url} (h : Current log reg) :
    Known log reg := by
  obtain ⟨later, now, earlier, rfl, -⟩ := h
  exact ⟨now, List.mem_append_right _ List.mem_cons_self⟩

/-- What is known stays so. -/
theorem Known.later {log : List (Entry Url)} {reg : Registration Url} (h : Known log reg)
    (entry : Entry Url) : Known (entry :: log) reg := by
  obtain ⟨now, hmem⟩ := h
  exact ⟨now, List.mem_cons_of_mem _ hmem⟩

/-- A registration stays current while nothing else is confirmed or ended. -/
theorem Current.later {log : List (Entry Url)} {reg : Registration Url} (h : Current log reg)
    {request : HttpRequest Url} (hpost : request.method = .post) :
    Current (.sent request :: log) reg := by
  obtain ⟨later, now, earlier, rfl, hlater⟩ := h
  exact ⟨.sent request :: later, now, earlier, rfl,
    List.forall_mem_cons.mpr ⟨decide_eq_true hpost, hlater⟩⟩

variable {c tasks}

/-- Each entry follows from those before it. -/
theorem Justified.entry {later earlier : List (Entry Url)} {entry : Entry Url}
    (h : Justified c tasks (later ++ entry :: earlier)) : Follows c tasks earlier entry := by
  induction later with
  | nil => exact h.1
  | cons _ later ih => exact ih h.2

/-- A confirmed registration is the answer to a request. -/
theorem Justified.confirmed {log : List (Entry Url)} {now : ℤ} {reg : Registration Url}
    (h : Justified c tasks log) (hmem : Entry.confirmed now reg ∈ log) : c.Confirmed now reg := by
  obtain ⟨later, earlier, rfl⟩ := List.append_of_mem hmem
  exact h.entry

/-- The registration of an invocation, with the body it was built for. -/
def Phase.holds : Phase Url → Option (Shared Url × Option Json)
  | .exchanging reg body _ => some (reg, some body)
  | .pausing reg body _ => some (reg, some body)
  | .recovering reg _ => some (reg, none)
  | _ => none

/-- What an invocation holds comes from a confirmed registration. -/
structure Backed (c : ScannerClient Url Origin) (task : Task) (log : List (Entry Url))
    (p : Phase Url) : Prop where
  known : ∀ reg body, p.holds = some (reg, body) → Known log reg.toRegistration
  body : ∀ reg body, p.holds = some (reg, some body) →
    ∃ timestamp, request c.b64 timestamp task.session task.stage reg.properties = .ok body

/-- The cached registration is the current one, and what is held and logged is justified. -/
structure Provenance (c : ScannerClient Url Origin) (tasks : ℕ → Task) (s : Life Url) : Prop where
  cached : ∀ reg, s.registration = some reg → Current s.log reg.toRegistration
  backed : ∀ i, Backed c (tasks i) s.log (s.invocation i)
  log : Justified c tasks s.log

/-- A phase that holds no registration needs none. -/
theorem Backed.of_holds_eq_none {task : Task} {log : List (Entry Url)} {p : Phase Url}
    (h : p.holds = none) : Backed c task log p where
  known := by simp [h]
  body := by simp [h]

/-- A phase stays backed by a longer log. -/
theorem Backed.later {task : Task} {log : List (Entry Url)} {p : Phase Url}
    (h : Backed c task log p) (entry : Entry Url) : Backed c task (entry :: log) p where
  known := fun reg body hp => (h.known reg body hp).later entry
  body := h.body

/-- One invocation moves, and the log may grow. -/
theorem backed_move {s : Life Url} {log : List (Entry Url)} {i : ℕ} {p : Phase Url}
    (h : ∀ j, Backed c (tasks j) log (s.invocation j)) (hp : Backed c (tasks i) log p) (j : ℕ) :
    Backed c (tasks j) log ((s.move i p).invocation j) := by
  by_cases hj : j = i
  · subst hj
    rwa [s.move_self]
  · rw [s.move_of_ne hj]
    exact h j

/-- A request other than DELETE is sent. -/
theorem Provenance.send {s : Life Url} {request : HttpRequest Url} (h : Provenance c tasks s)
    (hpost : request.method = .post) (hallowed : Allowed c tasks s.log request) :
    Provenance c tasks (s.send request) where
  cached := fun reg hreg => (h.cached reg hreg).later hpost
  backed := fun i => (h.backed i).later _
  log := ⟨hallowed, h.log⟩

/-- An invocation that goes on to a backed phase keeps the provenance. -/
theorem Provenance.move {s : Life Url} {i : ℕ} {p : Phase Url} (h : Provenance c tasks s)
    (hp : Backed c (tasks i) s.log p) : Provenance c tasks (s.move i p) where
  cached := h.cached
  backed := backed_move h.backed hp
  log := h.log

/-- The lock plays no part, and the cache may be cleared. -/
theorem Provenance.cleared {s : Life Url} {cached : Option (Shared Url)} {lock : Option ℕ}
    (h : Provenance c tasks s) (hcached : ∀ reg, cached = some reg → s.registration = some reg) :
    Provenance c tasks { s with registration := cached, lock } where
  cached := fun reg hreg => h.cached reg (hcached reg hreg)
  backed := h.backed
  log := h.log

/-- A registration is accepted. -/
theorem Provenance.confirm {s : Life Url} {utc : ℤ} {reg : Registration Url}
    (h : Provenance c tasks s) (hconfirmed : c.Confirmed utc reg) :
    Provenance c tasks (s.confirm utc reg) where
  cached := by
    intro reg' hreg
    obtain rfl := Option.some.inj hreg
    exact ⟨[], utc, s.log, rfl, by simp⟩
  backed := fun i => (h.backed i).later _
  log := ⟨hconfirmed, h.log⟩

/-- A request about a callback keeps the provenance. -/
theorem Provenance.post {s : Life Url} {i : ℕ} {reg : Shared Url} {body : Json} {x : Spent}
    (h : Provenance c tasks s) (hp : Backed c (tasks i) s.log (.exchanging reg body x)) :
    Provenance c tasks (s.post c tasks i reg body x) := by
  obtain ⟨timestamp, hbody⟩ := hp.body reg body rfl
  exact (h.move hp).send rfl (.hook (hp.known reg _ rfl) hbody)

/-- The start of a request about a callback keeps the provenance. -/
theorem Provenance.project {s : Life Url} {i : ℕ} {reg : Shared Url} {timestamp : Str} {x : Spent}
    (h : Provenance c tasks s) (hknown : Known s.log reg.toRegistration) :
    Provenance c tasks (s.project c tasks i reg timestamp x) := by
  unfold Life.project
  split
  next => exact h.move (.of_holds_eq_none rfl)
  next body hbody =>
    refine h.post ⟨fun reg' body' hreg => ?_, fun reg' body' hreg => ?_⟩
    · obtain ⟨rfl, -⟩ := Prod.mk.inj (Option.some.inj hreg)
      exact hknown
    · obtain ⟨rfl, hbody'⟩ := Prod.mk.inj (Option.some.inj hreg)
      obtain rfl := Option.some.inj hbody'
      exact ⟨timestamp, hbody⟩

/-- An answer leaves the invocation its registration, or nothing. -/
theorem Backed.answered {task : Task} {log : List (Entry Url)} {reg : Shared Url} {body : Json}
    {x : Spent} (h : Backed c task log (.exchanging reg body x))
    (exchange : Except HttpFailure Invoke.Response) (now random : ℕ) :
    Backed c task log (c.answered task reg body x exchange now random) := by
  unfold ScannerClient.answered
  dsimp only
  split
  next => exact .of_holds_eq_none rfl
  next => exact .of_holds_eq_none rfl
  next =>
    split_ifs
    · refine ⟨fun reg' body' hreg => ?_, fun reg' body' hreg => ?_⟩
      · obtain ⟨rfl, -⟩ := Prod.mk.inj (Option.some.inj hreg)
        exact h.known reg _ rfl
      · obtain ⟨-, hbody⟩ := Prod.mk.inj (Option.some.inj hreg)
        cases hbody
    · exact .of_holds_eq_none rfl
    · exact ⟨h.known, h.body⟩
    · exact .of_holds_eq_none rfl

/-- What is left of the cache after a failure was cached. -/
theorem recovered_eq_some {cached : Option (Shared Url)} {failed reg : Shared Url}
    (h : recovered cached failed = some reg) : cached = some reg := by
  unfold recovered at h
  split at h
  · cases h
  · exact h

/-- **One step** logs what is allowed. -/
theorem Provenance.moves [DecidableEq Origin] {s t : Life Url} {a : Action}
    (h : Provenance c tasks s) (hmoves : Moves c tasks s a t) : Provenance c tasks t := by
  cases hmoves with
  | begins hphase now => exact h.move (.of_holds_eq_none rfl)
  | found hphase hlock hreg hfresh timestamp => exact h.project (h.cached _ hreg).known
  | renews hphase hlock hstale timestamp =>
    exact ((h.move (.of_holds_eq_none rfl)).send rfl .register).cleared fun _ hreg => hreg
  | confirms hphase hregister timestamp =>
    exact (h.confirm (register_confirmed hregister)).project ⟨_, List.mem_cons_self⟩
  | refused hphase hregister timestamp =>
    exact (h.move (.of_holds_eq_none rfl)).cleared fun _ hreg => hreg
  | @answers i reg body x hphase exchange now random =>
    have hbacked := h.backed i
    rw [hphase] at hbacked
    exact h.move (hbacked.answered exchange now random)
  | @resumes i reg body x hphase =>
    have hbacked := h.backed i
    rw [hphase] at hbacked
    exact h.post ⟨hbacked.known, hbacked.body⟩
  | recovers hphase hlock =>
    exact (h.move (.of_holds_eq_none rfl)).cleared fun _ hreg => recovered_eq_some hreg
  | drops hactive => exact (h.move (.of_holds_eq_none rfl)).cleared fun _ hreg => hreg
  | releases hlock =>
    refine h.cleared fun reg hreg => ?_
    cases hreg
  | deregisters hlock hreg hurl henabled =>
    refine ⟨fun reg' hreg' => ?_, fun i => (h.backed i).later _,
      .deregister (h.cached _ hreg) hurl, h.log⟩
    cases hreg'

/-! ### The main result -/

/-- A run of a client that has started, with a clock that does not run backwards. -/
def Reaches [DecidableEq Origin] (c : ScannerClient Url Origin) (tasks : ℕ → Task)
    (actions : List Action) (s : Life Url) : Prop :=
  ∃ transport start startupWait fuel e reg, ∃ world : Startup Url → Attempt,
    (∀ s, s.resumed ≤ (world s).now) ∧
    c.withOptions transport start startupWait world fuel = some e ∧ e.result = .ok reg ∧
    Machine.exec (c.next tasks) (.started e.log reg) actions = some s

/-- The URL of a client that can be built is its own. -/
theorem checkOptions_ok {transport : Result Unit} (h : c.checkOptions transport = .ok ()) :
    c.Own c.registrationUrl := by
  obtain ⟨_, hvalid, -⟩ := Result.bind_ok_iff.mp h
  exact ⟨c.urls.validateUrl_ok.mp hvalid, rfl⟩

/-- A client that has started has only registered. -/
theorem Provenance.started {start startupWait : ℕ} {e : Started Url} {reg : Registration Url}
    (h : Started.Bounded c start startupWait e) (hreg : e.result = .ok reg) :
    Provenance c tasks (.started e.log reg) := by
  obtain ⟨now, earlier, hlog⟩ := h.confirmed reg hreg
  refine ⟨fun reg' hreg' => ?_, fun i => .of_holds_eq_none rfl, ?_⟩
  · obtain rfl := Option.some.inj hreg'
    exact ⟨[], now, earlier, hlog, by simp⟩
  · have hjustified : ∀ log, (∀ entry ∈ log, entry = .sent c.registerRequest ∨
        ∃ now reg, entry = .confirmed now reg ∧ e.result = .ok reg ∧ c.Confirmed now reg) →
        Justified c tasks log := by
      intro log
      induction log with
      | nil => exact fun _ => trivial
      | cons entry log ih =>
        intro hlog
        obtain ⟨hentry, hlog⟩ := List.forall_mem_cons.mp hlog
        refine ⟨?_, ih hlog⟩
        rcases hentry with rfl | ⟨now, reg, rfl, -, hconfirmed⟩
        · exact .register
        · exact hconfirmed
    exact hjustified e.log h.sent

/-- **The provenance holds in every run.** -/
theorem Reaches.provenance [DecidableEq Origin] {actions : List Action} {s : Life Url}
    (h : Reaches c tasks actions s) : Provenance c tasks s ∧ c.Own c.registrationUrl := by
  obtain ⟨transport, start, startupWait, fuel, e, reg, world, hclock, hstarted, hreg, hrun⟩ := h
  have hbounded := withOptions_bounded hclock hstarted
  refine ⟨Machine.exec_invariant_on hrun (.started hbounded hreg) fun s t a _ hnext hs =>
    hs.moves (next_moves hnext), ?_⟩
  unfold withOptions at hstarted
  split at hstarted
  next err _ =>
    obtain rfl := Option.some.inj hstarted
    cases hreg
  next hchecked => exact checkOptions_ok hchecked

/-- **Requests are confined.**  In every run, whatever the scanner answers and in whatever
    order the invocations run, every request goes to a trusted URL of the origin of the
    registration URL.  It is a registration; or a hook request, to the endpoint and under the id
    of a registration confirmed before it, with the confirmed properties of the message and
    nothing else; or the end of the current registration. -/
theorem confined [DecidableEq Origin] {c : ScannerClient Url Origin} {tasks : ℕ → Task}
    {actions : List Action} {s : Life Url} (h : Reaches c tasks actions s)
    {later earlier : List (Entry Url)} {r : HttpRequest Url}
    (hlog : s.log = later ++ .sent r :: earlier) :
    c.Own r.url ∧ r.authorization = c.authentication ∧
    (r = c.registerRequest ∨
      (∃ reg now i fields, .confirmed now reg ∈ earlier ∧ c.Confirmed now reg ∧
        r = c.hookRequest reg (tasks i).requestId (.object fields) ∧
        (∃ timestamp, request c.b64 timestamp (tasks i).session (tasks i).stage
          reg.properties = .ok (.object fields)) ∧
        ∀ k, k ∈ fields.map Prod.fst ↔ ∃ p ∈ reg.properties, k = p.drop 1) ∨
      ∃ reg url, Current earlier reg ∧ reg.deregistration = some url ∧
        r = c.deregisterRequest reg url) := by
  obtain ⟨hprovenance, hown⟩ := h.provenance
  have hjustified := hprovenance.log
  rw [hlog] at hjustified
  have hconfirmed : ∀ {now reg}, .confirmed now reg ∈ earlier → c.Confirmed now reg := by
    intro now reg hmem
    rw [← List.singleton_append, ← List.append_assoc] at hjustified
    exact hjustified.confirmed (List.mem_append_right _ hmem)
  have hallowed : Allowed c tasks earlier r := hjustified.entry
  cases hallowed with
  | register => exact ⟨hown, rfl, .inl rfl⟩
  | @hook reg i timestamp body hknown hbody =>
    obtain ⟨now, hmem⟩ := hknown
    obtain ⟨fields, rfl, hkeys⟩ := request_keys hbody
    have hreg := hconfirmed hmem
    exact ⟨hreg.endpoint, rfl,
      .inr (.inl ⟨reg, now, i, fields, hmem, hreg, rfl, ⟨timestamp, hbody⟩, hkeys⟩)⟩
  | @deregister reg url hcurrent hurl =>
    obtain ⟨now, hmem⟩ := hcurrent.known
    exact ⟨(hconfirmed hmem).deregistration url hurl, rfl,
      .inr (.inr ⟨reg, url, hcurrent, hurl, rfl⟩)⟩

/-- All invocations are about one message. -/
def sampleTasks : ℕ → Task := fun _ =>
  { session := Sample.atEnd ["<b>"] [("Subject", " s")], stage := .endMessage, requestId := "7" }

/-- A hook request that is answered without content, and the end of the registration. -/
def sampleActions : List Action :=
  [.evaluate 0 100, .registered 0 200 "t", .hook 0 (.ok { status := 204 }) 120 0, .deregister]

/-- A life from startup to the end of the registration. -/
def sampleLife : Option (Life Str) := do
  let e ← sampleClient.withOptions (.ok ()) 0 1000 sampleWorld 1001
  let reg ← e.result.toOption
  Machine.exec (sampleClient.next sampleTasks) (.started e.log reg) sampleActions

/-- What the sample sends, the last first. -/
theorem sampleLife_sends :
    sampleLife.map (fun s => s.log.map Entry.isSent) = some [true, true, false, true, true] := by
  decide +kernel

/-- The sample is a run. -/
theorem sampleLife_reaches {s : Life Str} (h : sampleLife = some s) :
    Reaches sampleClient sampleTasks sampleActions s := by
  unfold sampleLife at h
  obtain ⟨e, hstarted, h⟩ := Option.bind_eq_some_iff.mp h
  obtain ⟨reg, hreg, hrun⟩ := Option.bind_eq_some_iff.mp h
  refine ⟨.ok (), 0, 1000, 1001, e, reg, sampleWorld, fun s => Nat.le_add_right s.resumed 20,
    hstarted, ?_, hrun⟩
  cases hresult : e.result with
  | ok reg' =>
    rw [hresult] at hreg
    obtain rfl := Option.some.inj hreg
    rfl
  | error err =>
    rw [hresult] at hreg
    cases hreg

/-- The last request of the sample goes to the client's own scanner. -/
theorem confined_at_deregistration :
    ∃ s r, Reaches sampleClient sampleTasks sampleActions s ∧ s.log.head? = some (.sent r) ∧
      sampleClient.Own r.url ∧ r.authorization = ascii "Bearer synthetic" := by
  obtain ⟨s, hlife, hlog⟩ := Option.map_eq_some_iff.mp sampleLife_sends
  have hreaches := sampleLife_reaches hlife
  obtain ⟨entry, earlier, hentry, hsent, -⟩ := List.map_eq_cons_iff.mp hlog
  cases entry with
  | sent r =>
    obtain ⟨hown, hauthorization, -⟩ :=
      confined hreaches (hentry.trans (List.nil_append (.sent r :: earlier)).symm)
    exact ⟨s, r, hreaches, by rw [hentry]; rfl, hown, hauthorization⟩
  | confirmed now reg => cases hsent

end ScannerClient

end Hooks

end MtaHooks
