import MtaHooks.Lib.Runs
import MtaHooks.Text

namespace MtaHooks

/-!
# The registration of concurrent invocations

Any number of invocations share the cached registration of a `HooksClient`, behind its mutex.
A step of the machine is what one invocation does between two awaits: it takes the lock in
`registered`, its registration is answered, its hook request is answered, it takes the lock to
compare and clear, or it is dropped.  The holder of the lock is explicit because the lock is
kept while a registration is under way.  No cached registration is near its expiry, and none is
released before the invocations have ended.

* `HooksClient.next_steps` — what a step can do;
* `HooksClient.Inv` — what every run keeps: only the holder of the lock registers, with an
  empty cache, and registrations are allocated in order.
-/

namespace Hooks

/-- A registration: its allocation, which tells it from every other one, and the id the
    scanner chose. -/
structure Registration where
  arc : ℕ
  id : Str
  deriving DecidableEq

/-- Why a hook request failed. -/
inductive HookFailure
  | httpStatus (status : UInt16)
  | connect
  | other
  deriving DecidableEq

namespace HookFailure

/-- The classes of failures that are retried. -/
def transient : HookFailure → Bool
  | .httpStatus status => status == 429 || (500 ≤ status && status < 600)
  | .connect => true
  | .other => false

/-- The scanner does not know the registration. -/
def isGone : HookFailure → Bool
  | .httpStatus status => status == 404 || status == 410
  | _ => false

end HookFailure

/-- What an invocation has used up. -/
structure Attempts where
  recovered : Bool := false
  retries : ℕ := 0
  deriving DecidableEq

/-- Where an invocation is. -/
inductive Phase
  /-- Before the lock of `registered`. -/
  | registering (a : Attempts)
  /-- In `registered`, with the lock, while the scanner registers the client. -/
  | renewing (a : Attempts)
  /-- The hook request is sent with the registration. -/
  | exchanging (reg : Registration) (a : Attempts)
  /-- The request failed on the registration; before the lock of the recovery. -/
  | recovering (reg : Registration) (a : Attempts)
  | finished
  deriving DecidableEq

/-- The client: the registration behind the mutex, the invocation that holds the mutex, the
    number of registrations so far, the option and the invocations. -/
structure HooksClient where
  registration : Option Registration
  lock : Option ℕ
  created : ℕ
  maxRetries : ℕ
  invocation : ℕ → Phase

/-- One step of one invocation. -/
inductive Action
  | registered (i : ℕ)
  | register (i : ℕ) (id : Option Str)
  | hook (i : ℕ) (failure : Option HookFailure) (late : Bool)
  | recover (i : ℕ)
  | drop (i : ℕ)
  deriving DecidableEq

namespace HooksClient

/-- The client after startup, which registered it once. -/
def started (id : Str) (maxRetries : ℕ) : HooksClient where
  registration := some ⟨0, id⟩
  lock := none
  created := 1
  maxRetries := maxRetries
  invocation := fun _ => .registering {}

/-- Move an invocation to a phase. -/
def move (c : HooksClient) (i : ℕ) (p : Phase) : HooksClient :=
  { c with invocation := Function.update c.invocation i p }

/-- The answer to a hook request: a decision, the one recovery, a retry in time, or an error. -/
def afterHook (maxRetries : ℕ) (reg : Registration) (a : Attempts) (failure : Option HookFailure)
    (late : Bool) : Phase :=
  match failure with
  | none => .finished
  | some failure =>
    -- The recovery comes before the retries, and is not counted among them.
    if failure.isGone && !a.recovered then .recovering reg { a with recovered := true }
    else if failure.transient && a.retries < maxRetries then
      -- The pause would last past the deadline of the request.
      if late then .finished else .exchanging reg { a with retries := a.retries + 1 }
    else .finished

/-- The cache after a recovery: it is cleared if its registration has the failed one's id. -/
def afterRecovery (cached : Option Registration) (reg : Registration) : Option Registration :=
  if cached.any fun r => r.id = reg.id then none else cached

/-- One action of an invocation. -/
def next (c : HooksClient) : Action → Option HooksClient
  | .registered i =>
    match c.invocation i, c.lock, c.registration with
    | .registering a, none, some reg => some (c.move i (.exchanging reg a))
    -- The guard is held over the registration, so nobody else finds the cache empty.
    | .registering a, none, none => some { c.move i (.renewing a) with lock := some i }
    | _, _, _ => none
  | .register i (some id) =>
    match c.invocation i with
    | .renewing a => some { c.move i (.exchanging ⟨c.created, id⟩ a) with
        registration := some ⟨c.created, id⟩
        lock := none
        created := c.created + 1 }
    | _ => none
  -- A registration that fails ends the invocation, and its guard with it.
  | .register i none =>
    match c.invocation i with
    | .renewing _ => some { c.move i .finished with lock := none }
    | _ => none
  | .hook i failure late =>
    match c.invocation i with
    | .exchanging reg a => some (c.move i (afterHook c.maxRetries reg a failure late))
    | _ => none
  | .recover i =>
    match c.invocation i, c.lock with
    | .recovering reg a, none => some { c.move i (.registering a) with
        registration := afterRecovery c.registration reg }
    | _, _ => none
  -- A deadline, or a request that cannot be projected; a dropped invocation drops its guard.
  | .drop i => some { c.move i .finished with lock := c.lock.filter (· ≠ i) }

/-- What a step can do. -/
inductive Steps (c : HooksClient) : Action → HooksClient → Prop
  | found {i : ℕ} {a : Attempts} {reg : Registration} (hphase : c.invocation i = .registering a)
    (hlock : c.lock = none) (hreg : c.registration = some reg) :
    Steps c (.registered i) (c.move i (.exchanging reg a))
  | renews {i : ℕ} {a : Attempts} (hphase : c.invocation i = .registering a)
    (hlock : c.lock = none) (hreg : c.registration = none) :
    Steps c (.registered i) { c.move i (.renewing a) with lock := some i }
  | registers {i : ℕ} {a : Attempts} (hphase : c.invocation i = .renewing a) (id : Str) :
    Steps c (.register i (some id)) { c.move i (.exchanging ⟨c.created, id⟩ a) with
      registration := some ⟨c.created, id⟩
      lock := none
      created := c.created + 1 }
  | refused {i : ℕ} {a : Attempts} (hphase : c.invocation i = .renewing a) :
    Steps c (.register i none) { c.move i .finished with lock := none }
  | answered {i : ℕ} {reg : Registration} {a : Attempts}
    (hphase : c.invocation i = .exchanging reg a) (failure : Option HookFailure) (late : Bool) :
    Steps c (.hook i failure late) (c.move i (afterHook c.maxRetries reg a failure late))
  | recovers {i : ℕ} {reg : Registration} {a : Attempts}
    (hphase : c.invocation i = .recovering reg a) (hlock : c.lock = none) :
    Steps c (.recover i) { c.move i (.registering a) with
      registration := afterRecovery c.registration reg }
  | drops (i : ℕ) :
    Steps c (.drop i) { c.move i .finished with lock := c.lock.filter (· ≠ i) }

/-- An action does one of these. -/
theorem next_steps {c c' : HooksClient} {a : Action} (h : next c a = some c') :
    Steps c a c' := by
  cases a with
  | registered i =>
    simp only [next] at h
    split at h
    · obtain rfl := Option.some.inj h
      exact .found ‹_› ‹_› ‹_›
    · obtain rfl := Option.some.inj h
      exact .renews ‹_› ‹_› ‹_›
    · cases h
  | register i id =>
    cases id with
    | some id =>
      simp only [next] at h
      split at h
      · obtain rfl := Option.some.inj h
        exact .registers ‹_› id
      · cases h
    | none =>
      simp only [next] at h
      split at h
      · obtain rfl := Option.some.inj h
        exact .refused ‹_›
      · cases h
  | hook i failure late =>
    simp only [next] at h
    split at h
    · obtain rfl := Option.some.inj h
      exact .answered ‹_› failure late
    · cases h
  | recover i =>
    simp only [next] at h
    split at h
    · obtain rfl := Option.some.inj h
      exact .recovers ‹_› ‹_›
    · cases h
  | drop i =>
    obtain rfl := Option.some.inj h
    exact .drops i

/-! ### The invariant -/

end HooksClient

namespace Phase

/-- The registration on which an invocation may still start a recovery, or has. -/
def recoverable : Phase → Option Registration
  | .exchanging reg a => if a.recovered then none else some reg
  | .recovering reg _ => some reg
  | _ => none

/-- An invocation that sends recovers from its own registration. -/
theorem eq_of_recoverable {reg r : Registration} {a : Attempts}
    (h : (exchanging reg a).recoverable = some r) : r = reg := by
  change (if a.recovered then none else some reg) = some r at h
  split_ifs at h
  exact (Option.some.inj h).symm

/-- The invocation is registering the client. -/
def isRenewing : Phase → Bool
  | .renewing _ => true
  | _ => false

end Phase

namespace HooksClient

/-- A request that is answered keeps its registration. -/
theorem recoverable_afterHook {n : ℕ} {reg r : Registration} {a : Attempts}
    {failure : Option HookFailure} {late : Bool}
    (h : (afterHook n reg a failure late).recoverable = some r) :
    (Phase.exchanging reg a).recoverable = some r := by
  unfold afterHook at h
  cases failure with
  | none => cases h
  | some failure =>
    dsimp only at h
    split_ifs at h with hgone htransient hlate
    · obtain ⟨-, hrecovered⟩ := Bool.and_eq_true_iff.mp hgone
      rw [Phase.recoverable, if_neg (by simpa using hrecovered)]
      exact h
    · cases h
    · exact h
    · cases h

/-- An invocation that has its answer does not renew. -/
theorem isRenewing_afterHook (n : ℕ) (reg : Registration) (a : Attempts)
    (failure : Option HookFailure) (late : Bool) :
    (afterHook n reg a failure late).isRenewing = false := by
  unfold afterHook
  cases failure with
  | none => rfl
  | some failure =>
    dsimp only
    split_ifs <;> rfl

/-- The registration after a recovery was the cached one, and has another id. -/
theorem afterRecovery_eq_some {cached : Option Registration} {reg r : Registration}
    (h : afterRecovery cached reg = some r) : cached = some r ∧ r.id ≠ reg.id := by
  unfold afterRecovery at h
  split_ifs at h with hid
  subst h
  exact ⟨rfl, by simpa using hid⟩

/-- An invocation is where it has moved. -/
@[simp] theorem move_self (c : HooksClient) (i : ℕ) (p : Phase) :
    (c.move i p).invocation i = p := by
  simp [move]

/-- The others stay where they are. -/
theorem move_of_ne {i j : ℕ} (h : j ≠ i) (c : HooksClient) (p : Phase) :
    (c.move i p).invocation j = c.invocation j := by
  simp [move, h]

/-- What every run keeps: who registers has the lock and finds no registration; the cached
    registration is the last one; and a registration that may still be recovered is one of
    those made, and the cached one if it has its allocation. -/
structure Inv (c : HooksClient) : Prop where
  renewing : ∀ i, (c.invocation i).isRenewing = true → c.lock = some i ∧ c.registration = none
  last : ∀ cur, c.registration = some cur → cur.arc + 1 = c.created
  older : ∀ i r, (c.invocation i).recoverable = some r → r.arc < c.created
  shared : ∀ i r, (c.invocation i).recoverable = some r → ∀ cur, c.registration = some cur →
    r.arc = cur.arc → r = cur

/-- The first state is as it should be. -/
theorem Inv.started (id : Str) (n : ℕ) : Inv (started id n) where
  renewing := by simp [HooksClient.started, Phase.isRenewing]
  last := by simp [HooksClient.started]
  older := by simp [HooksClient.started, Phase.recoverable]
  shared := by simp [HooksClient.started, Phase.recoverable]

/-- One invocation moves, and the client changes with it. -/
theorem Inv.moved {c : HooksClient} (h : Inv c) {i : ℕ} {p : Phase}
    {registration : Option Registration} {lock : Option ℕ} {created : ℕ}
    (hothers : ∀ j ≠ i, (c.invocation j).isRenewing = true →
      lock = some j ∧ registration = none)
    (hrenewing : p.isRenewing = true → lock = some i ∧ registration = none)
    (hcreated : c.created ≤ created)
    (hcached : ∀ cur, registration = some cur → cur.arc + 1 = created ∧
      (c.registration = some cur ∨ c.created < created))
    (hp : ∀ r, p.recoverable = some r → r.arc < created ∧
      ∀ cur, registration = some cur → r.arc = cur.arc → r = cur) :
    Inv { c.move i p with registration, lock, created } where
  renewing := by
    intro j hj
    by_cases hji : j = i
    · subst hji
      exact hrenewing (by simpa using hj)
    · exact hothers j hji (move_of_ne hji c p ▸ hj)
  last := fun cur hcur => (hcached cur hcur).1
  older := by
    intro j r hr
    by_cases hji : j = i
    · subst hji
      exact (hp r (by simpa using hr)).1
    · exact lt_of_lt_of_le (h.older j r (move_of_ne hji c p ▸ hr)) hcreated
  shared := by
    intro j r hr cur hcur harc
    by_cases hji : j = i
    · subst hji
      exact (hp r (by simpa using hr)).2 cur hcur harc
    · have hr' : (c.invocation j).recoverable = some r := move_of_ne hji c p ▸ hr
      obtain ⟨hlast, hold | hnew⟩ := hcached cur hcur
      · exact h.shared j r hr' cur hold harc
      -- A new allocation is none of those in use.
      · have hlt := h.older j r hr'
        omega

/-- A free lock: nobody is registering. -/
theorem Inv.not_renewing {c : HooksClient} (h : Inv c) (hlock : c.lock = none) (j : ℕ) :
    (c.invocation j).isRenewing = false := by
  by_contra hj
  have hheld := (h.renewing j (by simpa using hj)).1
  rw [hlock] at hheld
  cases hheld

/-- The others do not have the lock of an invocation. -/
theorem Inv.not_renewing_of_ne {c : HooksClient} (h : Inv c) {i j : ℕ} (hlock : c.lock = some i)
    (hne : j ≠ i) : (c.invocation j).isRenewing = false := by
  by_contra hj
  have hheld := (h.renewing j (by simpa using hj)).1
  rw [hlock] at hheld
  exact hne (Option.some.inj hheld).symm

/-- **Every step keeps the invariant.** -/
theorem Inv.step {c c' : HooksClient} {a : Action} (h : Inv c) (hstep : Steps c a c') :
    Inv c' := by
  have hsame : ∀ cur, c.registration = some cur → cur.arc + 1 = c.created ∧
      (c.registration = some cur ∨ c.created < c.created) :=
    fun cur hcur => ⟨h.last cur hcur, .inl hcur⟩
  cases hstep with
  | found hphase hlock hreg =>
    refine h.moved (fun j _ hj => h.renewing j hj) (by simp [Phase.isRenewing]) le_rfl hsame ?_
    intro r hr
    obtain rfl := Phase.eq_of_recoverable hr
    have hlast := h.last _ hreg
    refine ⟨by omega, fun cur hcur _ => ?_⟩
    exact Option.some.inj (hreg.symm.trans hcur)
  -- Nobody else is registering: the lock was free.
  | renews hphase hlock hreg =>
    refine h.moved (fun j _ hj => ?_) (fun _ => ⟨rfl, hreg⟩) le_rfl hsame
      (by simp [Phase.recoverable])
    rw [h.not_renewing hlock j] at hj
    cases hj
  | @registers i a hphase id =>
    have hheld := (h.renewing i (by rw [hphase]; rfl)).1
    refine h.moved (fun j hne hj => ?_) (by simp [Phase.isRenewing]) (Nat.le_succ _) ?_ ?_
    · rw [h.not_renewing_of_ne hheld hne] at hj
      cases hj
    · intro cur hcur
      obtain rfl := Option.some.inj hcur
      exact ⟨rfl, .inr (Nat.lt_succ_self _)⟩
    · intro r hr
      obtain rfl := Phase.eq_of_recoverable hr
      exact ⟨Nat.lt_succ_self _, fun cur hcur _ => Option.some.inj hcur⟩
  | @refused i a hphase =>
    have hheld := (h.renewing i (by rw [hphase]; rfl)).1
    refine h.moved (fun j hne hj => ?_) (by simp [Phase.isRenewing]) le_rfl hsame
      (by simp [Phase.recoverable])
    rw [h.not_renewing_of_ne hheld hne] at hj
    cases hj
  | @answered i reg a hphase failure late =>
    refine h.moved (fun j _ hj => h.renewing j hj) ?_ le_rfl hsame fun r hr => ?_
    · simp [isRenewing_afterHook]
    · have hr' : (c.invocation i).recoverable = some r := hphase ▸ recoverable_afterHook hr
      exact ⟨h.older i r hr', h.shared i r hr'⟩
  -- The lock is free, so a cleared cache takes nothing from one that registers.
  | recovers hphase hlock =>
    refine h.moved (fun j _ hj => ?_) (by simp [Phase.isRenewing]) le_rfl ?_
      (by simp [Phase.recoverable])
    · rw [h.not_renewing hlock j] at hj
      cases hj
    · intro cur hcur
      exact hsame cur (afterRecovery_eq_some hcur).1
  | drops i =>
    refine h.moved (fun j hne hj => ?_) (by simp [Phase.isRenewing]) le_rfl hsame
      (by simp [Phase.recoverable])
    obtain ⟨hheld, hnone⟩ := h.renewing j hj
    exact ⟨by simp [hheld, hne], hnone⟩

/-- A client of some run. -/
def Reachable (c : HooksClient) : Prop :=
  ∃ id n actions, Machine.exec next (started id n) actions = some c

/-- **Each reachable state** is as it should be. -/
theorem Reachable.inv {c : HooksClient} (h : Reachable c) : Inv c := by
  obtain ⟨id, n, actions, hexec⟩ := h
  exact Machine.exec_invariant_on hexec (.started id n) fun _ _ _ _ hnext hc =>
    hc.step (next_steps hnext)

end HooksClient

end Hooks

end MtaHooks
