import MtaHooks.Session.History
import Mathlib.Algebra.Order.BigOperators.Group.Finset

namespace MtaHooks

open FallibleState
open scoped BigOperators

/-!
# What a session stores and what it was charged

Each counter of the message bounds the content it was charged for, and so do the limits.

* `Performs.charges` — what the arm of a command adds to the stored message it adds to the
  counter;
* `Performs.envelope` / `Performs.macros_le` — the envelope and the macro batches;
* `Reachable.stored_le` — the stored message fits the limit in every reachable session, also
  after refused calls.
-/

/-! ### The size of macro batches -/

namespace Batches

/-- The bytes of the batch of a class. -/
def weight (m : Batches) (c : UInt8) : ℕ := ((m c).map Macros.size).getD 0

/-- The size of the batches is the sum of their weights. -/
theorem size_eq (m : Batches) : m.size = ∑ c, m.weight c := rfl

/-- Replacing the batch of a class exchanges its weight. -/
theorem size_set (m : Batches) (c : UInt8) (b : Option Macros) :
    (m.set c b).size + m.weight c = m.size + (b.map Macros.size).getD 0 := by
  have hother : ∑ d ∈ Finset.univ.erase c, (m.set c b).weight d =
      ∑ d ∈ Finset.univ.erase c, m.weight d := by
    refine Finset.sum_congr rfl fun d hd => ?_
    rw [weight, weight, set_of_ne _ _ (Finset.ne_of_mem_erase hd)]
  -- The batch of the class apart, both sums run over the same classes.
  have hset := Finset.add_sum_erase Finset.univ (m.set c b).weight (Finset.mem_univ c)
  have hold := Finset.add_sum_erase Finset.univ m.weight (Finset.mem_univ c)
  have hnew : (m.set c b).weight c = (b.map Macros.size).getD 0 := by rw [weight, set_same]
  rw [size_eq, size_eq]
  omega

/-- A batch that is dropped gives back its weight. -/
theorem size_set_none (m : Batches) (c : UInt8) : (m.set c none).size + m.weight c = m.size := by
  have h := m.size_set c none
  rw [Option.map_none, Option.getD_none, Nat.add_zero] at h
  exact h

/-- What is retained is no more than there was. -/
theorem size_retain_le (m : Batches) : m.retain.size ≤ m.size := by
  refine Finset.sum_le_sum fun c _ => ?_
  unfold retain
  split
  · exact le_rfl
  · exact Nat.zero_le _

/-- No batches have no weight. -/
@[simp] theorem size_empty : Batches.empty.size = 0 := Finset.sum_const_zero

end Batches

namespace Session

/-- The bytes of all macro batches, active or waiting for their command. -/
def macroBytes (s : Session) : ℕ := s.macros.size + s.pendingMacros.size

/-- Activating a batch moves it and drops the one it replaces. -/
theorem activateMacros_macroBytes (s : Session) (c : UInt8) :
    (s.activateMacros c).macroBytes ≤ s.macroBytes := by
  have hactive := s.macros.size_set c (s.pendingMacros c)
  have hpending := s.pendingMacros.size_set_none c
  have hweight : s.pendingMacros.weight c = ((s.pendingMacros c).map Macros.size).getD 0 := rfl
  unfold macroBytes activateMacros
  dsimp only
  omega

/-- The end of a transaction takes no macros. -/
theorem resetMessage_macroBytes (s : Session) : s.resetMessage.macroBytes ≤ s.macroBytes :=
  Nat.add_le_add s.macros.size_retain_le s.pendingMacros.size_retain_le

/-- The start of a transaction takes no macros. -/
theorem startMail_macroBytes (s : Session) : s.startMail.macroBytes ≤ s.macroBytes := by
  have hC : byte 'M' ≠ byte 'C' := by decide
  have hH : byte 'M' ≠ byte 'H' := by decide
  have hactive := s.macros.retain.size_set (byte 'M') (s.pendingMacros (byte 'M'))
  have hretained := s.macros.size_retain_le
  have hpending := (s.pendingMacros.set (byte 'M') none).size_retain_le
  -- MAIL is no class that survives: the order of taking and retaining does not matter.
  rw [Batches.retain_set _ _ hC hH] at hpending
  have hmoved := s.pendingMacros.size_set_none (byte 'M')
  have hweight : s.pendingMacros.weight (byte 'M') =
      ((s.pendingMacros (byte 'M')).map Macros.size).getD 0 := rfl
  unfold macroBytes startMail
  dsimp only
  omega

/-- No command but the macros makes them more. -/
theorem Performs.macros_le {s u : Session} {c : Command} (h : Performs s c u) :
    u.macroBytes ≤ s.macroBytes := by
  cases h with
  | mail => exact s.startMail_macroBytes
  | abort => exact (resetMessage_macroBytes _).trans (s.activateMacros_macroBytes _)
  | quit => exact (resetMessage_macroBytes _).trans (s.activateMacros_macroBytes _)
  | quitNewConnection =>
    show Batches.empty.size + Batches.empty.size ≤ _
    rw [Batches.size_empty]
    exact Nat.zero_le _
  | connect => exact s.activateMacros_macroBytes _
  | helo => exact s.activateMacros_macroBytes _
  | recipient => exact s.activateMacros_macroBytes _
  | data => exact s.activateMacros_macroBytes _
  | header => exact s.activateMacros_macroBytes _
  | endHeaders => exact s.activateMacros_macroBytes _
  | body => exact s.activateMacros_macroBytes _
  | endMessage => exact s.activateMacros_macroBytes _
  | unknown => exact s.activateMacros_macroBytes _

/-! ### The message -/

end Session

/-- The bytes of a header in the raw message: name, value, colon, space and line end. -/
def headerCost (field : Bytes × Bytes) : ℕ := field.1.length + field.2.length + 4

namespace Session

/-- The bytes of the stored message: headers, the empty line once EOH was received, and body. -/
def stored (s : Session) : ℕ :=
  (s.message.headers.map headerCost).sum + (if s.state = .body then 2 else 0) +
    s.message.body.length

/-- What the arm of a command adds to the stored message it adds to the counter, within the limit;
    or both start from zero. -/
theorem Performs.charges {s u : Session} {c : Command} (h : Performs s c u) (hs : Valid s) :
    (u.stored = 0 ∧ u.message.bytes = 0) ∨
      ∃ n, u.stored = s.stored + n ∧ u.message.bytes = s.message.bytes + n ∧
        (n = 0 ∨ u.message.bytes ≤ s.limits.messageBytes) := by
  cases h with
  -- The state decides whether the empty line counts, so the arms that change it say where from.
  | connect hstate => exact .inr ⟨0, by simp [stored, hstate], rfl, .inl rfl⟩
  | helo hstate => exact .inr ⟨0, rfl, rfl, .inl rfl⟩
  | mail hstate hbudget => exact .inl ⟨rfl, rfl⟩
  | recipient hstate hbudget hcount =>
    have hbody : s.state ≠ .body := by
      rcases hstate with h | h <;> rw [h] <;> decide
    exact .inr ⟨0, by simp [stored, hbody], rfl, .inl rfl⟩
  | data hstate => exact .inr ⟨0, by simp [stored, hstate], rfl, .inl rfl⟩
  | @header name value hstate hcount hbudget =>
    have hbody : s.state ≠ .body := by
      rcases hstate with h | h <;> rw [h] <;> decide
    refine .inr ⟨name.length + value.length + 4, ?_, rfl, .inr hbudget⟩
    simp only [stored, hbody, List.map_append, List.sum_append, List.map_cons, List.map_nil,
      List.sum_cons, List.sum_nil, headerCost]
    simp
    omega
  | endHeaders hstate hbudget =>
    have hbody : s.state ≠ .body := by
      rcases hstate with h | h <;> rw [h] <;> decide
    refine .inr ⟨2, ?_, rfl, .inr hbudget⟩
    simp only [stored, hbody, if_true, if_false]
    show (s.message.headers.map headerCost).sum + 2 + s.message.body.length = _
    omega
  | @body chunk hstate hbudget =>
    refine .inr ⟨chunk.length, ?_, rfl, .inr hbudget⟩
    show (s.message.headers.map headerCost).sum + (if s.state = .body then 2 else 0) +
      (s.message.body ++ chunk).length = _
    rw [List.length_append, ← Nat.add_assoc]
    rfl
  | endMessage hstate => exact .inr ⟨0, rfl, rfl, .inl rfl⟩
  | abort =>
    refine .inl ⟨?_, rfl⟩
    -- ABORT may leave the state alone, but `body` needs a connection and so becomes `ready`.
    have hstate : (if s.connection.isSome ∧ s.state ≠ .stopped then .ready else s.state) ≠
        State.body := by
      by_cases hbody : s.state = .body
      · have hconnection : s.connection.isSome := hs.connection (by rw [hbody]; rfl)
        rw [hbody, if_pos ⟨hconnection, by decide⟩]
        decide
      · split
        · decide
        · exact hbody
    show 0 + (if _ = State.body then 2 else 0) + 0 = 0
    rw [if_neg hstate]
  | quit => exact .inl ⟨rfl, rfl⟩
  | quitNewConnection => exact .inl ⟨rfl, rfl⟩
  | unknown => exact .inr ⟨0, rfl, rfl, .inl rfl⟩

/-- A decision leaves the stored message and its counter as they are, or drops both. -/
theorem settle_charges {s : Session} {stage : Stage} (v : Verdict)
    (hpending : s.pending = some stage) (hs : Valid s) :
    ((settle stage v s).stored = 0 ∧ (settle stage v s).message.bytes = 0) ∨
      (settle stage v s).stored = s.stored ∧
        (settle stage v s).message.bytes = s.message.bytes := by
  have hstate := hs.awaits stage hpending
  unfold settle
  dsimp only
  by_cases hshut : v = .shutdown
  · rw [if_pos hshut]
    exact .inl ⟨rfl, rfl⟩
  rw [if_neg hshut]
  by_cases hrcpt : rejected v ∧ stage = .recipient
  · rw [if_pos hrcpt]
    have hbody : s.state ≠ .body := by
      rw [hstate, hrcpt.2]
      decide
    -- A refused recipient: neither the state before nor the one after is `body`.
    have hafter : (if s.message.recipients.dropLast.isEmpty then State.mail else .recipients) ≠
        .body := by
      split <;> decide
    refine .inr ⟨?_, rfl⟩
    simp only [stored, hbody, hafter, if_false]
  rw [if_neg hrcpt]
  by_cases hstop : rejected v ∧ (stage = .connect ∨ stage = .helo)
  · rw [if_pos hstop]
    have hbody : s.state ≠ .body := by
      rw [hstate]
      rcases hstop.2 with h | h <;> rw [h] <;> decide
    refine .inr ⟨?_, rfl⟩
    simp only [stored, hbody, if_false]
    rfl
  rw [if_neg hstop]
  split
  · exact .inl ⟨rfl, rfl⟩
  · exact .inr ⟨rfl, rfl⟩

/-- A field takes no more than it was charged for. -/
theorem length_rawField_le (leadingSpace : Bool) (field : Bytes × Bytes) :
    (rawField leadingSpace field).length ≤ headerCost field := by
  unfold rawField headerCost
  simp only [List.length_append, List.length_cons, List.length_nil]
  split
  · simp only [List.length_cons, List.length_nil]
    omega
  · simp only [List.length_nil]
    omega

/-- Once EOH was received, the raw message takes no more than what is stored. -/
theorem length_rawMessage_le {s : Session} (hstate : s.state = .body) :
    s.rawMessage.length ≤ s.stored := by
  have hheaders : (s.message.headers.flatMap (rawField s.leadingSpace)).length ≤
      (s.message.headers.map headerCost).sum := by
    rw [List.length_flatMap]
    exact List.sum_le_sum fun field _ => length_rawField_le s.leadingSpace field
  unfold rawMessage stored
  rw [if_pos hstate]
  simp only [List.length_append, List.length_cons, List.length_nil]
  omega

/-- The session waits or not: what is stored is the same. -/
theorem awaiting_stored (u : Session) (c : Command) :
    (u.awaiting c).stored = u.stored ∧ (u.awaiting c).message = u.message := by
  unfold awaiting
  split <;> exact ⟨rfl, rfl⟩

/-- What is charged is not stored yet. -/
theorem Charges.stored {s t : Session} (h : Charges s t) : t.stored = s.stored := by
  unfold Session.stored
  rw [h.same.headers, h.same.state, h.same.body]

/-- What is stored was charged, and fits the limit. -/
def Affords (s : Session) : Prop :=
  s.stored ≤ s.message.bytes ∧ s.stored ≤ s.limits.messageBytes

/-- An accepted command is one that the session can afford. -/
theorem Accepts.affords {s t : Session} {c : Command} {step : Step} (h : Accepts s c step t)
    (hs : Valid s) (haffords : Affords s) : Affords t := by
  obtain ⟨hcharged, hfits⟩ := haffords
  cases h with
  | @negotiate offered reply hstate hversion hreply =>
    have hbody : s.state ≠ .body := by rw [hstate]; decide
    have hstored : Session.stored { s with
        options := some (s.negotiated offered), state := .negotiated } = s.stored := by
      simp only [stored, hbody, if_false]
      rfl
    refine ⟨?_, ?_⟩
    · rw [hstored]; exact hcharged
    · rw [hstored]; exact hfits
  | macros hstate hbudget => exact ⟨hcharged, hfits⟩
  | @perform _ u hstate hperforms =>
    obtain ⟨hstored, hmessage⟩ := awaiting_stored u c
    have hlimits : (u.awaiting c).limits = s.limits :=
      (awaiting_fixed u c).1.trans hperforms.fixed.1
    unfold Affords
    rw [hstored, hmessage, hlimits]
    rcases hperforms.charges hs with ⟨hzero, -⟩ | ⟨n, hu, hbytes, hbudget⟩
    · rw [hzero]
      exact ⟨Nat.zero_le _, Nat.zero_le _⟩
    · refine ⟨by omega, ?_⟩
      rcases hbudget with rfl | hbudget
      · omega
      · omega

/-- **The stored message fits the limit**, also after calls that return an error. -/
theorem Reachable.stored_le {s : Session} (h : Reachable s) :
    s.stored ≤ s.limits.messageBytes := by
  have hstep : ∀ s i, Valid s ∧ Affords s → Valid (call s i).2 ∧ Affords (call s i).2 := by
    intro s i hs
    refine call_preserves_charged (P := fun s => Valid s ∧ Affords s)
      (fun hs => hs.1.options.mpr) ?_ ?_ ?_ ?_ hs i
    -- A refused call may leave charges, which only makes the counter larger.
    · rintro s t hcharges ⟨hv, hcharged, hfits⟩
      refine ⟨hv.of_sameView hcharges.same, ?_⟩
      unfold Affords
      rw [hcharges.stored, hcharges.same.limits]
      exact ⟨hcharged.trans hcharges.bytes, hfits⟩
    · intro s hready hs
      have hzero : s.resetMessage.stored = 0 := by
        have hbody : s.state ≠ .body := by rw [hready]; decide
        simp [stored, hbody]
      refine ⟨hs.1.reset hready, ?_⟩
      unfold Affords
      rw [hzero]
      exact ⟨Nat.zero_le _, Nat.zero_le _⟩
    · rintro s c step t hpending - ha ⟨hv, haffords⟩
      exact ⟨ha.valid hv hpending, ha.affords hv haffords⟩
    · rintro s stage v hpending ⟨hv, hcharged, hfits⟩
      refine ⟨settle_valid v hpending hv, ?_⟩
      unfold Affords
      rw [(settle_fixed stage v s).1]
      rcases settle_charges v hpending hv with ⟨hzero, -⟩ | ⟨hstored, hbytes⟩
      · rw [hzero]
        exact ⟨Nat.zero_le _, Nat.zero_le _⟩
      · rw [hstored, hbytes]
        exact ⟨hcharged, hfits⟩
  -- The structural invariant goes along: the step needs it for ABORT and for decisions.
  refine (Machine.Reachable.invariant (P := fun s => Valid s ∧ Affords s) ?_ hstep h).2.2
  rintro s hinitial
  refine ⟨hinitial.valid, ?_⟩
  obtain ⟨limits, stages, wantedActions, macroLists, rfl⟩ := hinitial
  exact ⟨Nat.zero_le _, Nat.zero_le _⟩

end Session

end MtaHooks
