import Mathlib.Data.Nat.Notation
import Mathlib.Tactic.Common

namespace StandardBase64

/-!
# The standard base64 encoding

Groups of three bytes as four symbols, the last group padded.  The decoder is canonical: it
accepts full padding only and no bits that the padding stands for.

* `decode_encode` — decoding undoes encoding;
* `length_encode` / `length_decode` — the lengths of an encoding and of what a text decodes to.
-/

/-- The symbol of a six-bit value. -/
def symbol (i : ℕ) : UInt8 :=
  if i < 26 then UInt8.ofNat (65 + i)
  else if i < 52 then UInt8.ofNat (97 + (i - 26))
  else if i < 62 then UInt8.ofNat (48 + (i - 52))
  else if i = 62 then 43
  else 47

/-- The six-bit value of a symbol. -/
def value (c : UInt8) : Option ℕ :=
  if 65 ≤ c ∧ c ≤ 90 then some (c.toNat - 65)
  else if 97 ≤ c ∧ c ≤ 122 then some (c.toNat - 97 + 26)
  else if 48 ≤ c ∧ c ≤ 57 then some (c.toNat - 48 + 52)
  else if c = 43 then some 62
  else if c = 47 then some 63
  else none

/-- The padding symbol. -/
def pad : UInt8 := 61

/-- Encode bytes. -/
def encode : List UInt8 → List UInt8
  | a :: b :: c :: rest =>
    symbol (a.toNat / 4) :: symbol (a.toNat % 4 * 16 + b.toNat / 16) ::
      symbol (b.toNat % 16 * 4 + c.toNat / 64) :: symbol (c.toNat % 64) :: encode rest
  | [a, b] =>
    [symbol (a.toNat / 4), symbol (a.toNat % 4 * 16 + b.toNat / 16), symbol (b.toNat % 16 * 4),
      pad]
  | [a] => [symbol (a.toNat / 4), symbol (a.toNat % 4 * 16), pad, pad]
  | [] => []

/-- Decode a text. -/
def decode : List UInt8 → Option (List UInt8)
  | [] => some []
  | w :: x :: y :: z :: rest => do
    let i ← value w
    let j ← value x
    if y = pad then
      if z = pad ∧ rest = [] ∧ j % 16 = 0 then some [UInt8.ofNat (i * 4 + j / 16)] else none
    else
      let k ← value y
      if z = pad then
        if rest = [] ∧ k % 4 = 0 then
          some [UInt8.ofNat (i * 4 + j / 16), UInt8.ofNat (j % 16 * 16 + k / 4)]
        else none
      else
        let l ← value z
        let bytes ← decode rest
        some (UInt8.ofNat (i * 4 + j / 16) :: UInt8.ofNat (j % 16 * 16 + k / 4) ::
          UInt8.ofNat (k % 4 * 64 + l) :: bytes)
  | _ => none

/-- A symbol is read back as its value. -/
theorem value_symbol {i : ℕ} (hi : i < 64) : value (symbol i) = some i := by
  have hall : ∀ i < 64, value (symbol i) = some i := by decide +kernel
  exact hall i hi

/-- No symbol is the padding. -/
theorem symbol_ne_pad {i : ℕ} (hi : i < 64) : symbol i ≠ pad := by
  have hall : ∀ i < 64, symbol i ≠ pad := by decide +kernel
  exact hall i hi

/-- The byte put together again from its parts. -/
theorem ofNat_eq {n : ℕ} {a : UInt8} (h : n = a.toNat) : UInt8.ofNat n = a := by
  rw [h, UInt8.ofNat_toNat]

/-- **Decoding undoes encoding.** -/
theorem decode_encode (bytes : List UInt8) : decode (encode bytes) = some bytes := by
  fun_induction encode bytes with
  | case1 a b c rest ih =>
    have ha := a.toNat_lt
    have hb := b.toNat_lt
    have hc := c.toNat_lt
    have hi : a.toNat / 4 < 64 := by omega
    have hj : a.toNat % 4 * 16 + b.toNat / 16 < 64 := by omega
    have hk : b.toNat % 16 * 4 + c.toNat / 64 < 64 := by omega
    have hl : c.toNat % 64 < 64 := by omega
    have hfirst : UInt8.ofNat (a.toNat / 4 * 4 + (a.toNat % 4 * 16 + b.toNat / 16) / 16) = a :=
      ofNat_eq (by omega)
    have hsecond : UInt8.ofNat ((a.toNat % 4 * 16 + b.toNat / 16) % 16 * 16 +
        (b.toNat % 16 * 4 + c.toNat / 64) / 4) = b := ofNat_eq (by omega)
    have hthird : UInt8.ofNat ((b.toNat % 16 * 4 + c.toNat / 64) % 4 * 64 + c.toNat % 64) = c :=
      ofNat_eq (by omega)
    simp only [decode, value_symbol hi, value_symbol hj, value_symbol hk, value_symbol hl,
      symbol_ne_pad hk, symbol_ne_pad hl, ih, hfirst, hsecond, hthird, Option.bind_eq_bind,
      Option.bind_some, if_false]
  | case2 a b =>
    have ha := a.toNat_lt
    have hb := b.toNat_lt
    have hi : a.toNat / 4 < 64 := by omega
    have hj : a.toNat % 4 * 16 + b.toNat / 16 < 64 := by omega
    have hk : b.toNat % 16 * 4 < 64 := by omega
    have hfirst : UInt8.ofNat (a.toNat / 4 * 4 + (a.toNat % 4 * 16 + b.toNat / 16) / 16) = a :=
      ofNat_eq (by omega)
    have hsecond : UInt8.ofNat ((a.toNat % 4 * 16 + b.toNat / 16) % 16 * 16 +
        b.toNat % 16 * 4 / 4) = b := ofNat_eq (by omega)
    have hzero : b.toNat % 16 * 4 % 4 = 0 := by omega
    simp only [decode, value_symbol hi, value_symbol hj, value_symbol hk, symbol_ne_pad hk,
      hzero, hfirst, hsecond, Option.bind_eq_bind, Option.bind_some, if_true, if_false, and_self]
  | case3 a =>
    have ha := a.toNat_lt
    have hi : a.toNat / 4 < 64 := by omega
    have hj : a.toNat % 4 * 16 < 64 := by omega
    have hfirst : UInt8.ofNat (a.toNat / 4 * 4 + a.toNat % 4 * 16 / 16) = a :=
      ofNat_eq (by omega)
    have hzero : a.toNat % 4 * 16 % 16 = 0 := by omega
    simp only [decode, value_symbol hi, value_symbol hj, hzero, hfirst, Option.bind_eq_bind,
      Option.bind_some, if_true, and_self]
  | case4 => rfl

/-- The length of an encoding. -/
theorem length_encode (bytes : List UInt8) :
    (encode bytes).length = (bytes.length + 2) / 3 * 4 := by
  fun_induction encode bytes with
  | case1 a b c rest ih =>
    simp only [List.length_cons, ih]
    omega
  | case2 a b => simp
  | case3 a => simp
  | case4 => rfl

/-- Four symbols stand for at most three bytes. -/
theorem length_decode {text bytes : List UInt8} (h : decode text = some bytes) :
    4 * bytes.length ≤ 3 * text.length := by
  induction text using decode.induct generalizing bytes with
  | case1 =>
    obtain rfl := Option.some.inj h
    exact Nat.le_refl _
  | case2 w x y z rest ih =>
    obtain ⟨i, -, h⟩ := Option.bind_eq_some_iff.mp h
    obtain ⟨j, -, h⟩ := Option.bind_eq_some_iff.mp h
    split at h
    -- a padded group is the last one
    · split at h
      · obtain rfl := Option.some.inj h
        simp only [List.length_cons, List.length_nil]
        omega
      · exact nomatch h
    · obtain ⟨k, -, h⟩ := Option.bind_eq_some_iff.mp h
      split at h
      · split at h
        · obtain rfl := Option.some.inj h
          simp only [List.length_cons, List.length_nil]
          omega
        · exact nomatch h
      · obtain ⟨l, -, h⟩ := Option.bind_eq_some_iff.mp h
        obtain ⟨after, hafter, h⟩ := Option.bind_eq_some_iff.mp h
        obtain rfl := Option.some.inj h
        have hrest := ih hafter
        simp only [List.length_cons]
        omega
  | case3 text hnil hgroup =>
    unfold decode at h
    split at h
    · exact absurd rfl hnil
    · exact absurd rfl (hgroup _ _ _ _ _)
    · exact nomatch h

end StandardBase64
