import MtaHooks.Hooks.Confinement

namespace MtaHooks

/-!
# What the requests disclose

Two families of messages with the same envelopes, connections and macros, in the same
environment: the same answers of the scanner, in the same order.

* `request_sameEnvelope` — a request without the raw message reads nothing else of a message;
* `ScannerClient.content_undisclosed` — as long as the scanner has not asked for the raw message,
  no request of a whole life depends on the content of any message.
-/

namespace Hooks

/-- The sessions agree on what requests read, but for the message itself. -/
structure SameEnvelope (s t : Session) : Prop where
  connection : t.connection = s.connection
  helo : t.helo = s.helo
  macros : t.macros = s.macros
  limits : t.limits = s.limits
  sender : t.message.sender = s.message.sender
  recipients : t.message.recipients = s.message.recipients

section Request

variable {s t : Session} {b64 : Base64} {timestamp : Str} {stage : Stage}

/-- The text of a macro does not depend on the content. -/
theorem SameEnvelope.macroText (h : SameEnvelope s t) (name : Str) :
    macroText t name = macroText s name := by
  unfold Hooks.macroText Session.macroValue
  rw [h.macros]

/-- The number of a macro does not depend on the content. -/
theorem SameEnvelope.macroNumber (h : SameEnvelope s t) (name : Str) :
    macroNumber t name = macroNumber s name := by
  unfold Hooks.macroNumber
  rw [h.macroText]

/-- The envelope does not depend on the content. -/
theorem SameEnvelope.envelope (h : SameEnvelope s t) (stage : Stage) :
    envelope t stage = envelope s stage := by
  unfold Hooks.envelope
  rw [h.sender, h.recipients]

/-- The client does not depend on the content. -/
theorem SameEnvelope.client (h : SameEnvelope s t) (connection : Connection) :
    client t connection = client s connection := by
  unfold Hooks.client
  simp only [h.macroText, h.macroNumber, h.helo]

/-- A property other than the raw message is that of the envelope. -/
theorem property_sameEnvelope (h : SameEnvelope s t) {connection : Connection} {p : Str}
    (hp : stage = .endMessage → p ≠ ascii "/rawMessage") :
    property b64 timestamp t connection stage p = property b64 timestamp s connection stage p := by
  have hauth : auth t = auth s := by
    unfold auth
    simp only [h.macroText]
  have htls : tls t = tls s := by
    unfold tls
    simp only [h.macroText, h.macroNumber]
  have hserver : server t = server s := by
    unfold server
    simp only [h.macroText, h.macroNumber]
  have hqueue : queue t = queue s := by
    unfold queue
    simp only [h.macroText]
  unfold property
  rw [h.envelope, h.client, hauth, htls, hserver, hqueue]
  -- Only the raw message is read from the content, and only at the end of the message.
  by_cases hraw : p = ascii "/rawMessage"
  · have hstage : stage ≠ .endMessage := fun hstage => hp hstage hraw
    simp only [hstage, if_false]
  · simp only [hraw, if_false]

/-- **A request without the raw message** is that of the envelope. -/
theorem request_sameEnvelope (h : SameEnvelope s t) {properties : List Str}
    (hp : stage = .endMessage → ascii "/rawMessage" ∉ properties) :
    request b64 timestamp t stage properties = request b64 timestamp s stage properties := by
  have hfold : ∀ (connection : Connection) (body : List (Str × Json)),
      properties.foldlM (fun body p => do
        let value ← property b64 timestamp t connection stage p
        return Json.insertField (p.drop 1) value body) body =
      properties.foldlM (fun body p => do
        let value ← property b64 timestamp s connection stage p
        return Json.insertField (p.drop 1) value body) body := by
    intro connection
    induction properties with
    | nil => exact fun _ => rfl
    | cons p properties ih =>
      intro body
      have hrest := ih fun hstage hmem => hp hstage (List.mem_cons_of_mem p hmem)
      have hfirst : stage = .endMessage → p ≠ ascii "/rawMessage" := fun hstage heq =>
        hp hstage (heq ▸ List.mem_cons_self)
      simp only [List.foldlM_cons, property_sameEnvelope h hfirst, hrest]
  unfold request
  simp only [h.connection, hfold]

end Request

namespace ScannerClient

/-- The invocations are alike but for the content of their messages. -/
structure Task.Alike (x y : Task) : Prop where
  session : SameEnvelope x.session y.session
  stage : y.stage = x.stage
  requestId : y.requestId = x.requestId

variable {Url Origin : Type} {c : ScannerClient Url Origin} {tasks tasks' : ℕ → Task}

/-- The phases differ in results only. -/
def Phase.Alike (p q : Phase Url) : Prop :=
  q = p ∨ ∃ r r', p = .finished r ∧ q = .finished r'

/-- A phase is like itself. -/
theorem Phase.Alike.refl (p : Phase Url) : p.Alike p := .inl rfl

/-- The lives differ in results only. -/
structure Life.Alike (s t : Life Url) : Prop where
  registration : t.registration = s.registration
  lock : t.lock = s.lock
  created : t.created = s.created
  log : t.log = s.log
  invocation : ∀ i, (s.invocation i).Alike (t.invocation i)

namespace Life.Alike

variable {s t : Life Url} {i : ℕ}

/-- What is not finished is the same. -/
theorem same (h : s.Alike t) {p : Phase Url} (hphase : s.invocation i = p)
    (hp : ∀ r, p ≠ .finished r) : t.invocation i = p := by
  rcases h.invocation i with heq | ⟨r, r', hfinished, -⟩
  · exact heq.trans hphase
  · exact absurd (hphase.symm.trans hfinished) (hp r)

/-- Alike clients stay so when an invocation goes on to alike phases. -/
theorem move (h : s.Alike t) {p q : Phase Url} (hpq : p.Alike q) :
    (s.move i p).Alike (t.move i q) where
  registration := h.registration
  lock := h.lock
  created := h.created
  log := h.log
  invocation := by
    intro j
    by_cases hj : j = i
    · subst hj
      rw [move_self, move_self]
      exact hpq
    · rw [move_of_ne _ hj, move_of_ne _ hj]
      exact h.invocation j

/-- Alike clients stay so when they send the same. -/
theorem send (h : s.Alike t) (request : HttpRequest Url) : (s.send request).Alike (t.send request)
    where
  registration := h.registration
  lock := h.lock
  created := h.created
  log := congrArg (List.cons _) h.log
  invocation := h.invocation

/-- Alike clients stay so when they confirm the same. -/
theorem confirm (h : s.Alike t) (utc : ℤ) (reg : Registration Url) :
    (s.confirm utc reg).Alike (t.confirm utc reg) where
  registration := by
    show some _ = some _
    rw [h.created]
  lock := rfl
  created := congrArg (· + 1) h.created
  log := congrArg (List.cons _) h.log
  invocation := h.invocation

/-- The cache and the lock change in the same way. -/
theorem set (h : s.Alike t) {cached cached' : Option (Shared Url)} {lock lock' : Option ℕ}
    (hcached : cached' = cached) (hlock : lock' = lock) :
    Life.Alike { s with registration := cached, lock }
      { t with registration := cached', lock := lock' } :=
  ⟨hcached, hlock, h.created, h.log, h.invocation⟩

/-- Alike clients stay so when they post the same body. -/
theorem post (h : s.Alike t) (htasks : ∀ i, (tasks i).Alike (tasks' i)) (reg : Shared Url)
    (body : Json) (x : Spent) :
    (s.post c tasks i reg body x).Alike (t.post c tasks' i reg body x) := by
  unfold Life.post
  rw [(htasks i).requestId]
  exact (h.move (.refl _)).send _

/-- Alike clients stay so when they ask about alike callbacks. -/
theorem project (h : s.Alike t) (htasks : ∀ i, (tasks i).Alike (tasks' i)) {reg : Shared Url}
    (hprivate : (tasks i).stage = .endMessage → ascii "/rawMessage" ∉ reg.properties)
    (timestamp : Str) (x : Spent) :
    (s.project c tasks i reg timestamp x).Alike (t.project c tasks' i reg timestamp x) := by
  unfold Life.project
  rw [(htasks i).stage, request_sameEnvelope (htasks i).session hprivate]
  split
  next => exact h.move (.refl _)
  next => exact h.post htasks _ _ _

end Life.Alike

/-- An answer depends on the content in a decision only. -/
theorem answered_alike {x y : Task} (h : x.Alike y) (reg : Shared Url) (body : Json) (spent : Spent)
    (exchange : Except Invoke.HttpFailure Invoke.Response) (now random : ℕ) :
    (c.answered x reg body spent exchange now random).Alike
      (c.answered y reg body spent exchange now random) := by
  unfold answered
  rw [h.session.limits]
  dsimp only
  split
  next => exact .inr ⟨_, _, rfl, rfl⟩
  next => exact .refl _
  next => exact .refl _

/-! ### Runs -/

/-- The log only grows. -/
theorem project_log (s : Life Url) (i : ℕ) (reg : Shared Url) (timestamp : Str) (x : Spent) :
    s.log <:+ (s.project c tasks i reg timestamp x).log := by
  unfold Life.project
  split
  next => exact List.suffix_rfl
  next => exact List.suffix_cons _ _

/-- A step only adds to the log. -/
theorem Moves.log [DecidableEq Origin] {s t : Life Url} {a : Action} (h : Moves c tasks s a t) :
    s.log <:+ t.log := by
  cases h with
  | found hphase hlock hreg hfresh timestamp => exact project_log _ _ _ _ _
  | confirms hphase hregister timestamp =>
    exact (List.suffix_cons _ s.log).trans (project_log (s.confirm _ _) _ _ _ _)
  | renews hphase hlock hstale timestamp => exact List.suffix_cons _ _
  | resumes hphase => exact List.suffix_cons _ _
  | deregisters hlock hreg hurl henabled => exact List.suffix_cons _ _
  | begins hphase now => exact List.suffix_rfl
  | refused hphase hregister timestamp => exact List.suffix_rfl
  | answers hphase exchange now random => exact List.suffix_rfl
  | recovers hphase hlock => exact List.suffix_rfl
  | drops hactive => exact List.suffix_rfl
  | releases hlock => exact List.suffix_rfl

/-- The scanner has not asked for the raw message of an invocation. -/
def Private (tasks : ℕ → Task) (log : List (Entry Url)) : Prop :=
  ∀ now reg, .confirmed now reg ∈ log → ∀ i, (tasks i).stage = .endMessage →
    ascii "/rawMessage" ∉ reg.properties

/-- What is private by the end was so before. -/
theorem Private.earlier {log later : List (Entry Url)} (h : Private tasks later)
    (hsuffix : log <:+ later) : Private tasks log :=
  fun now reg hmem => h now reg (hsuffix.subset hmem)

variable [DecidableEq Origin]

/-- **One step** is taken in the other life too. -/
theorem next_alike {s s' t : Life Url} {a : Action} (htasks : ∀ i, (tasks i).Alike (tasks' i))
    (hprovenance : Provenance c tasks s) (hs : s.Alike s') (hnext : c.next tasks s a = some t)
    (hprivate : Private tasks t.log) : ∃ t', c.next tasks' s' a = some t' ∧ t.Alike t' := by
  cases a with
  | evaluate i now =>
    simp only [next] at hnext ⊢
    split at hnext
    next hphase =>
      obtain rfl := Option.some.inj hnext
      rw [hs.same hphase (by simp)]
      exact ⟨_, rfl, hs.move (.refl _)⟩
    next => cases hnext
  | registered i utc timestamp =>
    simp only [next] at hnext ⊢
    split at hnext
    next x hphase hlock =>
      rw [hs.same hphase (by simp), hs.lock, hlock, hs.registration]
      dsimp only
      split at hnext
      next reg hreg =>
        obtain rfl := Option.some.inj hnext
        obtain ⟨now, hknown⟩ :=
          (hprovenance.cached reg (Option.filter_eq_some_iff.mp hreg).1).known
        have hprivate' := hprivate.earlier (project_log s i reg timestamp x)
        exact ⟨_, rfl, hs.project htasks (hprivate' now _ hknown i) timestamp x⟩
      next =>
        obtain rfl := Option.some.inj hnext
        exact ⟨_, rfl, ((hs.move (.refl _)).send _).set hs.registration rfl⟩
    next => cases hnext
  | register i exchange utc timestamp =>
    simp only [next] at hnext ⊢
    split at hnext
    next x hphase =>
      rw [hs.same hphase (by simp)]
      dsimp only
      split at hnext
      next reg hregister =>
        obtain rfl := Option.some.inj hnext
        have hprivate' := hprivate.earlier (project_log _ i _ timestamp x)
        rw [hs.created]
        exact ⟨_, rfl, (hs.confirm utc reg).project htasks
          (hprivate' utc reg List.mem_cons_self i) timestamp x⟩
      next e _ =>
        obtain rfl := Option.some.inj hnext
        exact ⟨_, rfl, (hs.move (.refl _)).set hs.registration rfl⟩
    next => cases hnext
  | hook i exchange now random =>
    simp only [next] at hnext ⊢
    split at hnext
    next reg body x hphase =>
      obtain rfl := Option.some.inj hnext
      rw [hs.same hphase (by simp)]
      exact ⟨_, rfl, hs.move (answered_alike (htasks i) reg body x exchange now random)⟩
    next => cases hnext
  | resume i =>
    simp only [next] at hnext ⊢
    split at hnext
    next reg body x hphase =>
      obtain rfl := Option.some.inj hnext
      rw [hs.same hphase (by simp)]
      exact ⟨_, rfl, hs.post htasks reg body x⟩
    next => cases hnext
  | recover i =>
    simp only [next] at hnext ⊢
    split at hnext
    next reg x hphase hlock =>
      obtain rfl := Option.some.inj hnext
      rw [hs.same hphase (by simp), hs.lock, hlock, hs.registration]
      exact ⟨_, rfl, (hs.move (.refl _)).set rfl hs.lock⟩
    next => cases hnext
  | drop i =>
    simp only [next] at hnext ⊢
    split at hnext
    next hactive =>
      obtain rfl := Option.some.inj hnext
      have hsame : s'.invocation i = s.invocation i := by
        refine hs.same rfl fun r hr => ?_
        rw [hr] at hactive
        cases hactive
      rw [hsame, if_pos hactive, hs.lock]
      exact ⟨_, rfl, (hs.move (.refl _)).set hs.registration rfl⟩
    next => cases hnext
  | deregister =>
    simp only [next] at hnext ⊢
    rw [hs.lock, hs.registration]
    split at hnext
    next hlock =>
      rw [if_pos hlock]
      have hreleased : Life.Alike { s with registration := none }
          { s' with registration := none, lock := s.lock } := hs.set rfl rfl
      split at hnext
      next =>
        obtain rfl := Option.some.inj hnext
        exact ⟨_, rfl, hreleased⟩
      next reg hreg =>
        split at hnext
        next =>
          obtain rfl := Option.some.inj hnext
          exact ⟨_, rfl, hreleased⟩
        next url hurl =>
          split at hnext
          next henabled =>
            obtain rfl := Option.some.inj hnext
            rw [if_pos henabled]
            exact ⟨_, rfl, hreleased.send _⟩
          next hdisabled =>
            obtain rfl := Option.some.inj hnext
            rw [if_neg hdisabled]
            exact ⟨_, rfl, hreleased⟩
    next => cases hnext

/-- The log only grows in a run. -/
theorem exec_log {s u : Life Url} {actions : List Action}
    (h : Machine.exec (c.next tasks) s actions = some u) : s.log <:+ u.log :=
  Machine.exec_invariant_on (P := fun t => s.log <:+ t.log) h List.suffix_rfl
    fun _ _ _ _ hnext hs => hs.trans (next_moves hnext).log

/-- **Whole runs** are taken in the other life too. -/
theorem exec_alike {s s' u : Life Url} {actions : List Action}
    (htasks : ∀ i, (tasks i).Alike (tasks' i)) (hprovenance : Provenance c tasks s)
    (hs : s.Alike s') (hrun : Machine.exec (c.next tasks) s actions = some u)
    (hprivate : Private tasks u.log) :
    ∃ u', Machine.exec (c.next tasks') s' actions = some u' ∧ u.Alike u' := by
  induction actions generalizing s s' with
  | nil =>
    obtain rfl := Option.some.inj hrun
    exact ⟨s', rfl, hs⟩
  | cons a actions ih =>
    obtain ⟨t, hnext, hrest⟩ := Machine.exec_cons.mp hrun
    obtain ⟨t', hnext', ht⟩ :=
      next_alike htasks hprovenance hs hnext (hprivate.earlier (exec_log hrest))
    obtain ⟨u', hrun', hu⟩ := ih (hprovenance.moves (next_moves hnext)) ht hrest
    exact ⟨u', Machine.exec_cons.mpr ⟨t', hnext', hrun'⟩, hu⟩

/-- **The content of messages is not disclosed.**  Two families of messages with the same
    envelopes, in whatever order their invocations run and whatever the scanner answers: while
    no registration has asked for the raw message, the same requests are sent for both, from
    startup to the end. -/
theorem content_undisclosed {c : ScannerClient Url Origin} {tasks tasks' : ℕ → Task}
    {actions : List Action} {s : Life Url} (h : Reaches c tasks actions s)
    (htasks : ∀ i, (tasks i).Alike (tasks' i)) (hprivate : Private tasks s.log) :
    ∃ s', Reaches c tasks' actions s' ∧ s'.log = s.log := by
  obtain ⟨transport, start, startupWait, fuel, e, reg, world, hclock, hstarted, hreg, hrun⟩ := h
  have hprovenance : Provenance c tasks (.started e.log reg) :=
    .started (withOptions_bounded hclock hstarted) hreg
  have hstart : (Life.started e.log reg).Alike (.started e.log reg) :=
    ⟨rfl, rfl, rfl, rfl, fun _ => .refl _⟩
  obtain ⟨s', hrun', hs'⟩ := exec_alike htasks hprovenance hstart hrun hprivate
  exact ⟨s', ⟨transport, start, startupWait, fuel, e, reg, world, hclock, hstarted, hreg, hrun'⟩,
    hs'.log⟩

/-- The properties that a confirmation asks for. -/
def asked : Entry Str → List Str
  | .sent _ => []
  | .confirmed _ reg => reg.properties

/-- The message of the sample with another content. -/
def sampleOther : ℕ → Task := fun i =>
  { sampleTasks i with session := { (sampleTasks i).session with
      message := { (sampleTasks i).session.message with
        headers := [("Subject", " other")], body := ascii "secret", bytes := 22 } } }

/-- The sample asks for nothing of the content. -/
theorem sampleLife_asked : sampleLife.map (fun s => s.log.flatMap asked) =
    some [ascii "/stage", ascii "/action", ascii "/envelope"] := by
  decide +kernel

/-- Another content leaves the log of the sample as it is. -/
theorem content_undisclosed_at_other :
    ∃ s s', sampleLife = some s ∧ Reaches sampleClient sampleOther sampleActions s' ∧
      s'.log = s.log := by
  obtain ⟨s, hlife, hasked⟩ := Option.map_eq_some_iff.mp sampleLife_asked
  have halike : ∀ i, (sampleTasks i).Alike (sampleOther i) :=
    fun _ => ⟨⟨rfl, rfl, rfl, rfl, rfl, rfl⟩, rfl, rfl⟩
  have hprivate : Private sampleTasks s.log := by
    intro now reg hmem i _ hraw
    have hraw' : ascii "/rawMessage" ∈ s.log.flatMap asked :=
      List.mem_flatMap.mpr ⟨_, hmem, hraw⟩
    rw [hasked] at hraw'
    exact absurd hraw' (by decide)
  obtain ⟨s', hreaches, hlog⟩ := content_undisclosed (sampleLife_reaches hlife) halike hprivate
  exact ⟨s, s', hlife, hreaches, hlog⟩

end ScannerClient

end Hooks

end MtaHooks
