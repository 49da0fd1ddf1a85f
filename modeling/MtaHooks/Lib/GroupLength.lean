import Mathlib.Algebra.Order.Floor.Div
import Mathlib.Tactic.Common

namespace GroupLength

/-!
# Lengths of codes by groups

A code writes every group of `k` elements, also one that is only begun, as `m` symbols.
`encoded k m n` is what `n` elements take; the other way round, `encoded m k l` is the most that
`l` symbols can stand for.

* `encoded_le_iff`, `encoded_lt_iff` — the elements that fit in whole groups of symbols;
* `encoded_encoded`, `encoded_self_lt` — there and back a length is rounded up to whole groups;
* `min_div_eq` — rounding up by a saturated addition is exact if the largest word is a multiple
  of the divisor;
* `add_le_wrapped_iff` — a sum of words covers its summands iff it does not wrap.
-/

section Groups

variable {k m : ℕ}

/-- The symbols for `n` elements: `m` for every group of `k`. -/
def encoded (k m n : ℕ) : ℕ := m * (n ⌈/⌉ k)

/-- The length in one division. -/
theorem encoded_eq (k m n : ℕ) : encoded k m n = (n + k - 1) / k * m := by
  rw [encoded, Nat.ceilDiv_eq_add_pred_div, Nat.mul_comm]

/-- **What fits in `q` groups of symbols** is `q` groups of elements. -/
theorem encoded_le_iff (hk : 0 < k) (hm : 0 < m) {n q : ℕ} :
    encoded k m n ≤ m * q ↔ n ≤ k * q := by
  rw [encoded, Nat.mul_le_mul_left_iff hm, ceilDiv_le_iff_le_mul hk]

/-- What leaves a group of symbols free leaves a group of elements free. -/
theorem encoded_lt_iff (hk : 0 < k) (hm : 0 < m) {n q : ℕ} :
    encoded k m n < m * q ↔ n + k ≤ k * q := by
  cases q with
  | zero =>
    simp only [Nat.mul_zero]
    omega
  | succ q =>
    rw [encoded, Nat.mul_lt_mul_left hm, Nat.lt_succ_iff, ceilDiv_le_iff_le_mul hk, Nat.mul_succ]
    omega

/-- More input never takes less output. -/
theorem encoded_mono (hk : 0 < k) (m : ℕ) {n n' : ℕ} (h : n ≤ n') :
    encoded k m n ≤ encoded k m n' :=
  Nat.mul_le_mul_left m ((gc_mul_ceilDiv hk).monotone_l h)

/-- There and back, a length is that of its groups. -/
theorem encoded_encoded (hm : 0 < m) (k n : ℕ) :
    encoded m k (encoded k m n) = encoded k k n := by
  have hback : m * (n ⌈/⌉ k) ⌈/⌉ m = n ⌈/⌉ k := smul_ceilDiv hm _
  rw [encoded, encoded, hback, encoded]

/-- Less than a group is added. -/
theorem encoded_self_lt (hk : 0 < k) (n : ℕ) : encoded k k n < n + k := by
  have hle := Nat.div_mul_le_self (n + k - 1) k
  rw [encoded_eq]
  omega

end Groups

section Words

/-- **A saturated rounding up is exact** if the largest word is a multiple of the divisor. -/
theorem min_div_eq {k max n : ℕ} (hk : 0 < k) (hmax : k ∣ max) (hn : n ≤ max) :
    min (n + (k - 1)) max / k = n ⌈/⌉ k := by
  obtain ⟨q, rfl⟩ := hmax
  rw [Nat.ceilDiv_eq_add_pred_div, ← Nat.add_sub_assoc hk]
  rcases Nat.le_total (n + k - 1) (k * q) with h | h
  · rw [Nat.min_eq_left h]
  · -- The last group is begun but not reached by the words.
    rw [Nat.min_eq_right h, Nat.mul_div_cancel_left q hk]
    apply Nat.le_antisymm
    · rw [Nat.le_div_iff_mul_le hk, Nat.mul_comm]
      exact h
    · rw [← Nat.ceilDiv_eq_add_pred_div, ceilDiv_le_iff_le_mul hk]
      exact hn

/-- **A sum of words covers its summands** iff it does not wrap. -/
theorem add_le_wrapped_iff {a b l words : ℕ} (ha : a < words) (hl : l ≤ a) :
    l + b ≤ (a + b) % words ↔ a + b < words := by
  constructor
  · intro hle
    by_contra hwraps
    have hlow : (a + b) % words ≤ a + b - words := by
      rw [Nat.mod_eq_sub_mod (by omega)]
      exact Nat.mod_le _ _
    omega
  · intro hlt
    rw [Nat.mod_eq_of_lt hlt]
    omega

end Words

end GroupLength
