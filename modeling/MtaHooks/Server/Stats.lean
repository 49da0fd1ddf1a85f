import MtaHooks.Protocol.Checked
import MtaHooks.Lib.Runs
import Mathlib.Algebra.BigOperators.Fin
import Mathlib.Data.Fintype.BigOperators

namespace MtaHooks

open scoped BigOperators

/-!
# Operational metrics

The counters a server shares between its tasks.  An operation is measured by observations: one
is begun when the operation starts, and dropped when it ends, with the outcome it was finished
with or, if it never was, as cancelled.

* `OperationStats.Accounts` — the counters of an operation describe the live observations and
  the finished ones, one by one;
* `Measurements.Describes.consistent` — the equations between the exported counters that
  follow.

Time is in nanoseconds, so `BUCKETS` is exact.  The source adds up `sum` in seconds as an `f64`,
which rounds; here it is the exact number of nanoseconds, and no result about the exported text
speaks of it.  The counters are atomics of 64 bits in the source and unbounded here: `fetchSub`
wraps at zero as it does there, so that a gauge that is released too often shows, but no addition
wraps.  What a task counts in a row, such as a message and the observation of its callback, is one
update here; in the source a reader can come in between, though not into one observation, which
is recorded behind a lock.
-/

/-! ### Labels -/

/-- Fixed, low-cardinality label, safe for logs and metrics. -/
def Error.kind : Error → String
  | .timeout => "timeout"
  | .httpTransport .timeout => "timeout"
  | .httpTransport .connect => "connect"
  | .httpTransport .request => "request"
  | .httpTransport .body => "body"
  | .httpTransport .decode => "decode"
  | .httpTransport .other => "transport"
  | .httpStatus _ => "http_status"
  | .io => "io"
  | .invalid _ => "invalid"
  | .limit _ => "limit"
  | .sequence _ _ => "protocol"
  | .notNegotiated => "capability"
  | .policy _ => "upstream"
  -- An abort is no error of the source and has no label there.
  | .panic _ => "panic"

/-- `FAILURE_KINDS`. -/
def failureKinds : List String :=
  ["timeout", "connect", "request", "body", "decode", "transport", "http_status", "io", "invalid",
    "limit", "protocol", "capability", "upstream", "cancelled"]

/-- `BUCKETS`, in nanoseconds. -/
def bucketBounds : List ℕ :=
  [1000000, 5000000, 10000000, 25000000, 50000000, 100000000, 250000000, 500000000, 1000000000,
    5000000000, 20000000000, 60000000000]

/-- The position of a label in the table. -/
def kindIndex (kind : String) : Result (Fin failureKinds.length) :=
  Checked.expect (failureKinds.finIdxOf? kind) "fixed error category"

/-- A label is that of a genuine outcome. -/
def Known (outcome : String) : Prop := outcome = "success" ∨ outcome ∈ failureKinds

/-- An observation that is dropped has a known label. -/
theorem known_cancelled : Known "cancelled" := .inr (by decide)

/-- The label of an error that is no panic is in the table. -/
theorem kind_mem {e : Error} (h : e.isPanic = false) : e.kind ∈ failureKinds := by
  cases e with
  | httpTransport k => cases k <;> decide
  | panic _ => cases h
  | _ => simp [Error.kind, failureKinds]

/-- No error is a success. -/
theorem kind_ne_success (e : Error) : e.kind ≠ "success" := by
  cases e with
  | httpTransport k => cases k <;> decide
  | _ => simp [Error.kind]

/-- No error is a cancellation. -/
theorem kind_ne_cancelled (e : Error) : e.kind ≠ "cancelled" := by
  cases e with
  | httpTransport k => cases k <;> decide
  | _ => simp [Error.kind]

/-- The labels differ. -/
theorem failureKinds_nodup : failureKinds.Nodup := by decide

/-- Success is no failure. -/
theorem success_not_mem : "success" ∉ failureKinds := by decide

/-- The lookup of a label in the table never aborts. -/
theorem kindIndex_of_mem {kind : String} (h : kind ∈ failureKinds) :
    ∃ i, kindIndex kind = .ok i ∧ failureKinds[i] = kind := by
  cases hi : failureKinds.finIdxOf? kind with
  | none => exact absurd h (List.finIdxOf?_eq_none_iff.mp hi)
  | some i =>
    refine ⟨i, by rw [kindIndex, Checked.expect, hi]; rfl, ?_⟩
    exact (List.finIdxOf?_eq_some_iff.mp hi).1

/-! ### Counters -/

/-- `fetch_sub(1)` of an unsigned counter, which wraps at zero. -/
def fetchSub (n : ℕ) : ℕ := if n = 0 then 2 ^ 64 - 1 else n - 1

/-- A positive counter goes down by one. -/
@[simp] theorem fetchSub_succ (n : ℕ) : fetchSub (n + 1) = n := rfl

/-- The counters of a table. -/
def bump {n : ℕ} (counts : Fin n → ℕ) (i : Fin n) : Fin n → ℕ :=
  Function.update counts i (counts i + 1)

/-- The counters after one is counted. -/
theorem bump_apply {n : ℕ} (counts : Fin n → ℕ) (i j : Fin n) :
    bump counts i j = counts j + if j = i then 1 else 0 := by
  unfold bump
  by_cases h : j = i
  · subst h
    rw [Function.update_self, if_pos rfl]
  · rw [Function.update_of_ne h, if_neg h, Nat.add_zero]

/-- One counter for each failure label. -/
abbrev FailureCounts := Fin failureKinds.length → ℕ

/-- Count a failure. -/
def FailureCounts.record (kind : String) (counts : FailureCounts) : Result FailureCounts := do
  let i ← kindIndex kind
  .ok (bump counts i)

/-- What is kept of the finished observations of an operation. -/
structure Measurements where
  buckets : Fin bucketBounds.length → ℕ := fun _ => 0
  count : ℕ := 0
  /-- In nanoseconds, and exact; an `f64` in seconds in the source. -/
  sum : ℕ := 0
  success : ℕ := 0
  failures : FailureCounts := fun _ => 0

/-- Add a duration: to the count, the sum and all buckets that hold it. -/
def Measurements.measure (elapsed : ℕ) (m : Measurements) : Measurements :=
  { m with
    count := m.count + 1
    sum := m.sum + elapsed
    buckets := fun i => if elapsed ≤ bucketBounds[i] then m.buckets i + 1 else m.buckets i }

/-- Add a finished observation. -/
def Measurements.record (elapsed : ℕ) (outcome : String) (m : Measurements) :
    Result Measurements := do
  let m := m.measure elapsed
  if outcome = "success" then .ok { m with success := m.success + 1 }
  else
    let i ← kindIndex outcome
    .ok { m with failures := bump m.failures i }

/-- A success is measured and counted. -/
theorem Measurements.record_success (elapsed : ℕ) {outcome : String} (h : outcome = "success")
    (m : Measurements) :
    m.record elapsed outcome = .ok { m.measure elapsed with success := m.success + 1 } :=
  if_pos h

/-- A failure is measured and counted under its label. -/
theorem Measurements.record_failure (elapsed : ℕ) {outcome : String} (h : outcome ≠ "success")
    {i : Fin failureKinds.length} (hi : kindIndex outcome = .ok i) (m : Measurements) :
    m.record elapsed outcome =
      .ok { m.measure elapsed with failures := bump m.failures i } := by
  simp only [record, if_neg h, hi]
  rfl

/-- The metrics of an operation. -/
structure OperationStats where
  active : ℕ := 0
  values : Measurements := {}

/-- An operation that is being measured. -/
structure Observation where
  started : ℕ
  outcome : String := "cancelled"

namespace OperationStats

/-- Start an observation. -/
def begin (now : ℕ) (op : OperationStats) : Observation × OperationStats :=
  ({ started := now }, { op with active := op.active + 1 })

end OperationStats

namespace Observation

/-- Dropped futures still release their gauge and record a cancelled observation. -/
def drop (now : ℕ) (o : Observation) (op : OperationStats) : Result OperationStats := do
  let values ← op.values.record (now - o.started) o.outcome
  .ok { active := fetchSub op.active, values }

/-- End an observation with an error, or with success. -/
def finishError (now : ℕ) (error : Option Error) (o : Observation) (op : OperationStats) :
    Result OperationStats :=
  drop now { o with outcome := (error.map Error.kind).getD "success" } op

/-- End an observation with a result. -/
def finish {α : Type} (now : ℕ) (result : Result α) (o : Observation) (op : OperationStats) :
    Result OperationStats :=
  finishError now (match result with | .ok _ => none | .error e => some e) o op

end Observation

/-- The label a result is recorded under. -/
def outcomeOf {α : Type} : Result α → String
  | .ok _ => "success"
  | .error e => e.kind

/-- A finished observation is dropped with its outcome. -/
theorem Observation.finish_eq {α : Type} (now : ℕ) (result : Result α) (o : Observation)
    (op : OperationStats) :
    finish now result o op = drop now { o with outcome := outcomeOf result } op := by
  cases result <;> rfl

/-- A result that is no panic has a known label. -/
theorem outcomeOf_known {α : Type} {result : Result α} (h : Result.Safe result) :
    Known (outcomeOf result) := by
  cases result with
  | ok a => exact .inl rfl
  | error e => exact .inr (kind_mem (h e rfl))

/-- All metrics of a server, as they stand between two events.  Those of the scanner client
    (`hookRetries`, `registration`, `hook`, `registrationWait`, `deregistration`) are not touched by
    its connections. -/
structure Stats where
  ready : Bool := false
  active : ℕ := 0
  connections : ℕ := 0
  overload : ℕ := 0
  messages : ℕ := 0
  /-- Progress keepalives sent while callbacks were pending. -/
  progress : ℕ := 0
  errors : ℕ := 0
  policyErrors : ℕ := 0
  hookRetries : ℕ := 0
  policy : OperationStats := {}
  registration : OperationStats := {}
  hook : OperationStats := {}
  registrationWait : OperationStats := {}
  deregistration : OperationStats := {}
  drainGraceful : ℕ := 0
  drainForced : ℕ := 0
  listener : UInt8 := 0
  connectionFailures : FailureCounts := fun _ => 0

/-- Count a connection that ended with an error. -/
def Stats.connectionError (error : Error) (stats : Stats) : Result Stats := do
  let connectionFailures ← stats.connectionFailures.record error.kind
  .ok { stats with errors := stats.errors + 1, connectionFailures }

/-! ### What the counters stand for -/

/-- The measurements are those of the finished observations in the list, each with its
    duration and label. -/
structure Measurements.Describes (m : Measurements) (log : List (ℕ × String)) : Prop where
  count : m.count = log.length
  sum : m.sum = (log.map Prod.fst).sum
  buckets : ∀ i, m.buckets i = log.countP fun x => x.1 ≤ bucketBounds[i]
  success : m.success = log.countP fun x => x.2 = "success"
  failures : ∀ i, m.failures i = log.countP fun x => x.2 = failureKinds[i]
  known : ∀ x ∈ log, Known x.2

/-- A label is that of one place in the table. -/
theorem getElem_kind_iff {outcome : String} {i : Fin failureKinds.length}
    (h : failureKinds[i] = outcome) (j : Fin failureKinds.length) :
    outcome = failureKinds[j] ↔ j = i := by
  constructor
  · intro he
    exact Fin.ext ((List.Nodup.getElem_inj_iff failureKinds_nodup).mp (h.trans he)).symm
  · rintro rfl
    exact h.symm

/-- No place in the table is that of success. -/
theorem getElem_kind_ne_success (j : Fin failureKinds.length) : "success" ≠ failureKinds[j] :=
  fun he => success_not_mem (he ▸ List.getElem_mem j.isLt)

/-- **An observation with a known label is recorded.**  The record never aborts. -/
theorem Measurements.Describes.record {m : Measurements} {log : List (ℕ × String)}
    (h : m.Describes log) (elapsed : ℕ) {outcome : String} (ho : Known outcome) :
    ∃ m', m.record elapsed outcome = .ok m' ∧ m'.Describes ((elapsed, outcome) :: log) := by
  have hcount : (m.measure elapsed).count = ((elapsed, outcome) :: log).length :=
    congrArg (· + 1) h.count
  have hknown : ∀ x ∈ (elapsed, outcome) :: log, Known x.2 := by
    intro x hx
    rcases List.mem_cons.mp hx with rfl | hx
    · exact ho
    · exact h.known x hx
  have hsum : (m.measure elapsed).sum = (((elapsed, outcome) :: log).map Prod.fst).sum := by
    rw [List.map_cons, List.sum_cons, ← h.sum]
    exact Nat.add_comm _ _
  have hbuckets : ∀ i, (m.measure elapsed).buckets i =
      ((elapsed, outcome) :: log).countP fun x => x.1 ≤ bucketBounds[i] := by
    intro i
    rw [List.countP_cons, ← h.buckets i]
    by_cases hi : elapsed ≤ bucketBounds[i]
    · rw [if_pos (decide_eq_true hi)]
      exact if_pos hi
    · rw [decide_eq_false hi]
      exact if_neg hi
  by_cases hok : outcome = "success"
  · refine ⟨_, record_success elapsed hok m, hcount, hsum, hbuckets, ?_, fun i => ?_, hknown⟩
    · rw [List.countP_cons, ← h.success, if_pos (decide_eq_true hok)]
    · have hi : outcome ≠ failureKinds[i] := hok ▸ getElem_kind_ne_success i
      rw [List.countP_cons, ← h.failures i, decide_eq_false hi]
      rfl
  · obtain ⟨i, hi, hkind⟩ := kindIndex_of_mem (ho.resolve_left hok)
    refine ⟨_, record_failure elapsed hok hi m, hcount, hsum, hbuckets, ?_, fun j => ?_, hknown⟩
    · rw [List.countP_cons, ← h.success, decide_eq_false hok]
      rfl
    · show bump m.failures i j = _
      rw [bump_apply, List.countP_cons, ← h.failures j]
      by_cases hji : j = i
      · rw [if_pos hji, if_pos (decide_eq_true ((getElem_kind_iff hkind j).mpr hji))]
      · rw [if_neg hji, decide_eq_false (mt (getElem_kind_iff hkind j).mp hji)]
        rfl

/-- An operation's metrics describe its live observations and the finished ones. -/
structure OperationStats.Accounts (op : OperationStats) (live : ℕ) (log : List (ℕ × String)) :
    Prop where
  active : op.active = live
  values : op.values.Describes log

namespace OperationStats

/-- Nothing is measured at first. -/
theorem Accounts.initial : Accounts {} 0 [] where
  active := rfl
  values := ⟨rfl, rfl, fun _ => rfl, rfl, fun _ => rfl, fun _ h => nomatch h⟩

/-- An operation that starts is a live observation. -/
theorem Accounts.begin {op : OperationStats} {live : ℕ} {log : List (ℕ × String)}
    (h : Accounts op live log) (now : ℕ) : Accounts (op.begin now).2 (live + 1) log :=
  ⟨congrArg (· + 1) h.active, h.values⟩

/-- **A dropped observation is recorded once**, and releases its gauge. -/
theorem Accounts.drop {op : OperationStats} {live : ℕ} {log : List (ℕ × String)}
    (h : Accounts op (live + 1) log) (now : ℕ) (o : Observation) (ho : Known o.outcome) :
    ∃ op', o.drop now op = .ok op' ∧
      Accounts op' live ((now - o.started, o.outcome) :: log) := by
  obtain ⟨m, hm, hdescribes⟩ := h.values.record (now - o.started) ho
  refine ⟨⟨fetchSub op.active, m⟩, ?_, ?_, hdescribes⟩
  · simp only [Observation.drop, hm]
    rfl
  · rw [h.active, fetchSub_succ]

end OperationStats

/-! ### Consequences -/

/-- The bounds of the buckets grow. -/
theorem bucketBounds_mono {i j : Fin bucketBounds.length} (h : i ≤ j) :
    bucketBounds[i] ≤ bucketBounds[j] := by
  revert i j
  decide

/-- Every label is counted once: as success or under one failure. -/
theorem sum_labels (log : List (ℕ × String)) (h : ∀ x ∈ log, Known x.2) :
    (log.countP fun x => x.2 = "success") +
      ∑ i : Fin failureKinds.length, (log.countP fun x => x.2 = failureKinds[i]) =
      log.length := by
  induction log with
  | nil => simp
  | cons x log ih =>
    have hlog := ih fun y hy => h y (List.mem_cons_of_mem x hy)
    have hx : (if x.2 = "success" then 1 else 0) +
        ∑ i : Fin failureKinds.length, (if x.2 = failureKinds[i] then 1 else 0) = 1 := by
      rcases h x List.mem_cons_self with hs | hf
      · rw [if_pos hs, Finset.sum_eq_zero fun i _ => if_neg (hs ▸ getElem_kind_ne_success i),
          Nat.add_zero]
      · obtain ⟨i, -, hi⟩ := kindIndex_of_mem hf
        have hs : ¬ x.2 = "success" := fun he => success_not_mem (he ▸ hf)
        simp only [if_neg hs, getElem_kind_iff hi, Nat.zero_add, Finset.sum_ite_eq',
          Finset.mem_univ, if_true]
    simp only [List.countP_cons, decide_eq_true_eq, Finset.sum_add_distrib, List.length_cons]
    omega

/-- **The exported counters of an operation are consistent.**  All finished observations are
    counted by exactly one outcome; the histogram is cumulative and bounded by the count. -/
theorem Measurements.Describes.consistent {m : Measurements} {log : List (ℕ × String)}
    (h : m.Describes log) :
    m.count = m.success + ∑ i, m.failures i ∧
      (∀ i j, i ≤ j → m.buckets i ≤ m.buckets j) ∧ ∀ i, m.buckets i ≤ m.count := by
  refine ⟨?_, fun i j hij => ?_, fun i => ?_⟩
  · rw [h.count, h.success, ← sum_labels log h.known]
    exact congrArg _ (Finset.sum_congr rfl fun i _ => (h.failures i).symm)
  · rw [h.buckets i, h.buckets j]
    refine List.countP_mono_left fun x _ hx => ?_
    have hle := bucketBounds_mono hij
    simp only [decide_eq_true_eq] at hx ⊢
    exact hx.trans hle
  · rw [h.buckets i, h.count]
    exact List.countP_le_length

end MtaHooks
