import MtaHooks.Text
import Mathlib.Data.List.Induction

namespace MtaHooks

/-!
# Canonical decimal numerals

A digit string without a leading zero is the numeral of its value, so such a string is known
from its value alone.

* `decimal_digitsValue` — the digits of a value, back from the value.
* `digitsValue_decimal` — the value of the digits of a number.
-/

/-- A zero stands before another digit. -/
def leadingZero : Str → Bool
  | c :: _ :: _ => c = byte '0'
  | _ => false

/-! ### The digits of a number -/

/-- The digit of a value below ten. -/
def digit (d : ℕ) : UInt8 := UInt8.ofNat (48 + d)

/-- The character of a digit. -/
theorem digitChar_of_lt {d : ℕ} (h : d < 10) : (Nat.digitChar d).toUInt8 = digit d := by
  revert h
  revert d
  decide

/-- A small number is its digit. -/
theorem decimal_of_lt {n : ℕ} (h : n < 10) : decimal n = [digit n] := by
  rw [decimal, Nat.toDigits_of_lt_base h, List.map_singleton, digitChar_of_lt h]

/-- A greater number ends with its last digit. -/
theorem decimal_of_le {n : ℕ} (h : 10 ≤ n) : decimal n = decimal (n / 10) ++ [digit (n % 10)] := by
  rw [decimal, Nat.toDigits_of_base_le (by decide) h, List.map_append, List.map_singleton,
    digitChar_of_lt (Nat.mod_lt n (by decide))]
  rfl

/-- One more digit. -/
theorem decimal_push {m d : ℕ} (hm : 0 < m) (hd : d < 10) :
    decimal (m * 10 + d) = decimal m ++ [digit d] := by
  have hdiv : (m * 10 + d) / 10 = m := by omega
  have hmod : (m * 10 + d) % 10 = d := by omega
  rw [decimal_of_le (by omega), hdiv, hmod]

/-- The byte of a digit. -/
theorem digit_toNat {d : ℕ} (h : d < 10) : (digit d).toNat = 48 + d := by
  rw [digit, UInt8.toNat_ofNat']
  omega

/-- A digit is one. -/
theorem digit_isAsciiDigit {d : ℕ} (h : d < 10) : isAsciiDigit (digit d) = true := by
  revert h
  revert d
  decide

/-- A digit from its value. -/
theorem digit_of_isAsciiDigit {c : UInt8} (h : isAsciiDigit c = true) :
    c.toNat - 48 < 10 ∧ digit (c.toNat - 48) = c := by
  simp only [isAsciiDigit, Bool.and_eq_true, decide_eq_true_eq, UInt8.le_iff_toNat_le] at h
  have hlow : 48 ≤ c.toNat := h.1
  have hhigh : c.toNat ≤ 57 := h.2
  refine ⟨by omega, UInt8.toNat_inj.mp ?_⟩
  rw [digit_toNat (by omega)]
  omega

/-- No number is shown as nothing. -/
theorem decimal_ne_nil (n : ℕ) : decimal n ≠ [] := by
  simp [decimal, Nat.toDigits_ne_nil]

/-- A number is shown in digits. -/
theorem decimal_all_digits (n : ℕ) : (decimal n).all isAsciiDigit = true := by
  induction n using Nat.strong_induction_on with
  | _ n ih =>
    by_cases hn : n < 10
    · simp [decimal_of_lt hn, digit_isAsciiDigit hn]
    · have hdigit := digit_isAsciiDigit (Nat.mod_lt n (by decide : 0 < 10))
      rw [decimal_of_le (by omega), List.all_append, ih (n / 10) (by omega)]
      simp [hdigit]

/-- A further digit in the value of digits. -/
theorem digitsValue_append_singleton (ds : Str) (c : UInt8) :
    digitsValue (ds ++ [c]) = digitsValue ds * 10 + (c.toNat - 48) := by
  simp [digitsValue]

/-- **The value of the digits of a number.** -/
theorem digitsValue_decimal (n : ℕ) : digitsValue (decimal n) = n := by
  induction n using Nat.strong_induction_on with
  | _ n ih =>
    by_cases hn : n < 10
    · rw [decimal_of_lt hn, digitsValue, List.foldl_cons, List.foldl_nil, digit_toNat hn]
      omega
    · have hmod : n % 10 < 10 := Nat.mod_lt n (by decide)
      rw [decimal_of_le (by omega), digitsValue_append_singleton, ih (n / 10) (by omega),
        digit_toNat hmod]
      omega

/-! ### Leading zeros -/

/-- Another digit behind more than one adds no leading zero. -/
theorem leadingZero_append {ds : Str} {c : UInt8} (h : 1 < ds.length) :
    leadingZero (ds ++ [c]) = leadingZero ds := by
  match ds, h with
  | _ :: _ :: _, _ => rfl

/-- Two digits have a leading zero if the first one is. -/
theorem leadingZero_pair {c d : UInt8} : leadingZero ([c] ++ [d]) = (c == byte '0') := rfl

/-- No number is written with a leading zero. -/
theorem leadingZero_decimal (n : ℕ) : leadingZero (decimal n) = false := by
  induction n using Nat.strong_induction_on with
  | _ n ih =>
    by_cases hn : n < 10
    · rw [decimal_of_lt hn]
      rfl
    · rw [decimal_of_le (by omega)]
      by_cases hsmall : n / 10 < 10
      · -- Two digits: the first is not zero.
        have hne : digit (n / 10) ≠ byte '0' := by
          intro h
          have hnat := congrArg UInt8.toNat h
          rw [digit_toNat hsmall] at hnat
          have hzero : (byte '0').toNat = 48 := rfl
          omega
        rw [decimal_of_lt hsmall, leadingZero_pair, beq_eq_false_iff_ne]
        exact hne
      · have hlength : 1 < (decimal (n / 10)).length := by
          rw [decimal_of_le (by omega), List.length_append, List.length_singleton]
          have := List.length_pos_iff.mpr (decimal_ne_nil (n / 10 / 10))
          omega
        rw [leadingZero_append hlength]
        exact ih (n / 10) (by omega)

/-- Digits in front of a digit have no leading zero and are not zero themselves. -/
theorem digitsValue_pos_of_append {ds : Str} {c : UInt8}
    (hdec : decimal (digitsValue ds) = ds) (hzero : leadingZero (ds ++ [c]) = false) :
    0 < digitsValue ds := by
  rcases Nat.eq_zero_or_pos (digitsValue ds) with h | h
  · rw [h] at hdec
    rw [← hdec] at hzero
    exact nomatch hzero
  · exact h

/-- Fewer digits have no leading zero either. -/
theorem leadingZero_of_append {ds : Str} {c : UInt8} (h : leadingZero (ds ++ [c]) = false) :
    leadingZero ds = false := by
  match ds with
  | [] => rfl
  | [_] => rfl
  | _ :: _ :: _ => exact h

/-- **The digits of a value, back from the value.** -/
theorem decimal_digitsValue {digits : Str} (hne : digits ≠ [])
    (hall : digits.all isAsciiDigit = true) (hzero : leadingZero digits = false) :
    decimal (digitsValue digits) = digits := by
  induction digits using List.reverseRecOn with
  | nil => exact absurd rfl hne
  | append_singleton ds c ih =>
    rw [List.all_append, Bool.and_eq_true, List.all_cons, Bool.and_eq_true] at hall
    obtain ⟨hlt, hdigit⟩ := digit_of_isAsciiDigit hall.2.1
    rw [digitsValue_append_singleton]
    by_cases hnil : ds = []
    · subst hnil
      rw [show digitsValue [] = 0 from rfl, Nat.zero_mul, Nat.zero_add, decimal_of_lt hlt, hdigit]
      rfl
    · -- The digits in front are a numeral already, of a value that is not zero.
      have hfront := ih hnil hall.1 (leadingZero_of_append hzero)
      have hpos := digitsValue_pos_of_append hfront hzero
      rw [decimal_push hpos hlt, hfront, hdigit]

end MtaHooks
