import Mathlib.Algebra.Ring.Nat
import Mathlib.Data.List.Basic

namespace MtaHooks

/-!
# Bytes and texts

`Bytes` stands for `Bytes`, `Vec<u8>` and `&[u8]`.  `Str` stands for `String` and `&str`,
held as UTF-8 bytes: every string operation of the source looks for ASCII characters, on
which it is an operation on the bytes.  `isUtf8` is the test of `std::str::from_utf8`.
-/

/-- A byte string. -/
abbrev Bytes := List UInt8

/-- A text, as its UTF-8 bytes. -/
abbrev Str := Bytes

/-- The byte literal `b'c'`. -/
abbrev byte (c : Char) : UInt8 := c.toUInt8

/-- The bytes of a string literal. -/
def ascii (s : String) : Str := s.toUTF8.data.toList

instance : Coe String Str := ⟨ascii⟩

/-! ### Machine sizes -/

/-- The largest `usize` of a 64-bit target. -/
def usizeMax : ℕ := 2 ^ 64 - 1

/-- `usize::checked_add`. -/
def checkedAdd (m n : ℕ) : Option ℕ := if m + n ≤ usizeMax then some (m + n) else none

/-- An addition that does not overflow is the sum. -/
theorem checkedAdd_eq_some {m n k : ℕ} (h : checkedAdd m n = some k) : k = m + n := by
  unfold checkedAdd at h
  split at h
  · exact (Option.some.inj h).symm
  · exact nomatch h

/-! ### ASCII classes -/

/-- `u8::is_ascii_digit`. -/
def isAsciiDigit (c : UInt8) : Bool := 48 ≤ c && c ≤ 57

/-- `u8::is_ascii_whitespace`. -/
def isAsciiWhitespace (c : UInt8) : Bool :=
  c == byte ' ' || c == byte '\t' || c == byte '\n' || c == 12 || c == byte '\r'

/-- `u8::is_ascii_control`. -/
def isAsciiControl (c : UInt8) : Bool := c < 32 || c == 127

/-- `[u8]::to_ascii_lowercase`. -/
def toAsciiLowercase (s : Bytes) : Bytes :=
  s.map fun c => if 65 ≤ c && c ≤ 90 then c + 32 else c

/-- `[u8]::eq_ignore_ascii_case`. -/
def eqIgnoreAsciiCase (s t : Bytes) : Bool := toAsciiLowercase s == toAsciiLowercase t

/-- A text is equal to itself. -/
@[simp] theorem eqIgnoreAsciiCase_refl (s : Bytes) : eqIgnoreAsciiCase s s = true := by
  simp [eqIgnoreAsciiCase]

/-! ### Prefixes, suffixes and splits -/

/-- `str::strip_prefix`. -/
def stripPrefix (p s : Str) : Option Str := s.dropPrefix? p

/-- `str::strip_suffix`. -/
def stripSuffix (p s : Str) : Option Str := s.dropSuffix? p

/-- `str::starts_with`. -/
def startsWith (p s : Str) : Bool := (stripPrefix p s).isSome

/-- `str::ends_with`. -/
def endsWith (p s : Str) : Bool := (stripSuffix p s).isSome

/-- What is left behind a prefix. -/
theorem stripPrefix_eq_some {p s r : Str} : stripPrefix p s = some r ↔ s = p ++ r := by
  simp [stripPrefix, List.dropPrefix?_eq_some_iff]

/-- A text starts with its first part. -/
theorem startsWith_iff {p s : Str} : startsWith p s = true ↔ ∃ r, s = p ++ r := by
  simp [startsWith, Option.isSome_iff_exists, stripPrefix_eq_some]

/-- A text ends with its last part. -/
theorem endsWith_iff {p s : Str} : endsWith p s = true ↔ ∃ r, s = r ++ p := by
  simp [endsWith, stripSuffix, Option.isSome_iff_exists, List.dropSuffix?_eq_some_iff]

/-- The first place of a byte. -/
theorem findIdx?_byte {l : Bytes} {c : UInt8} {n : ℕ} :
    l.findIdx? (· = c) = some n ↔
      ∃ before after, l = before ++ c :: after ∧ c ∉ before ∧ before.length = n := by
  induction l generalizing n with
  | nil => simp
  | cons x l ih =>
    rw [List.findIdx?_cons]
    by_cases hx : x = c
    · subst hx
      simp only [decide_true, if_true, Option.some.injEq]
      constructor
      · rintro rfl
        exact ⟨[], l, rfl, by simp, rfl⟩
      · rintro ⟨before, after, hsplit, hout, rfl⟩
        cases before with
        | nil => rfl
        | cons y before =>
          obtain ⟨rfl, -⟩ := List.cons.inj hsplit
          simp at hout
    · simp only [hx, decide_false, Bool.false_eq_true, if_false, Option.map_eq_some_iff]
      constructor
      · rintro ⟨m, hm, rfl⟩
        obtain ⟨before, after, rfl, hout, rfl⟩ := ih.mp hm
        exact ⟨x :: before, after, rfl, by simp [hout, Ne.symm hx], rfl⟩
      · rintro ⟨before, after, hsplit, hout, rfl⟩
        cases before with
        | nil =>
          obtain ⟨rfl, -⟩ := List.cons.inj hsplit
          exact absurd rfl hx
        | cons y before =>
          obtain ⟨rfl, rfl⟩ := List.cons.inj hsplit
          refine ⟨before.length, ih.mpr ⟨before, after, rfl, ?_, rfl⟩, rfl⟩
          exact fun h => hout (List.mem_cons_of_mem _ h)

/-- `str::split_once` at an ASCII character: the text before its first occurrence and the
    text after it. -/
def splitOnce (sep : UInt8) : Str → Option (Str × Str)
  | [] => none
  | c :: rest =>
    if c = sep then some ([], rest)
    else (splitOnce sep rest).map fun (front, back) => (c :: front, back)

/-- A text is split at its first separator. -/
theorem splitOnce_eq_some {sep : UInt8} {s front back : Str} :
    splitOnce sep s = some (front, back) ↔ s = front ++ sep :: back ∧ sep ∉ front := by
  induction s generalizing front with
  | nil => simp [splitOnce]
  | cons c s ih =>
    rw [splitOnce]
    by_cases hc : c = sep
    · rw [if_pos hc]
      cases front with
      | nil => simp [hc, eq_comm]
      | cons d front =>
        simp only [Option.some.injEq, Prod.mk.injEq, List.nil_eq, reduceCtorEq, false_and,
          List.cons_append, List.cons.injEq, List.mem_cons, not_or, false_iff, not_and]
        rintro ⟨rfl, -⟩ hne
        exact absurd hc.symm hne
    · rw [if_neg hc, Option.map_eq_some_iff]
      constructor
      · rintro ⟨⟨front', back'⟩, hsplit, hpair⟩
        obtain ⟨rfl, rfl⟩ := Prod.mk.inj hpair
        obtain ⟨rfl, hout⟩ := ih.mp hsplit
        exact ⟨rfl, by simp [hout, Ne.symm hc]⟩
      · rintro ⟨heq, hout⟩
        cases front with
        | nil => exact absurd (List.cons.inj heq).1 hc
        | cons d front =>
          obtain ⟨rfl, hrest⟩ := List.cons.inj heq
          have hout' : sep ∉ front := fun h => hout (List.mem_cons_of_mem _ h)
          exact ⟨(front, back), ih.mpr ⟨hrest, hout'⟩, rfl⟩

/-- A text without a separator is not split. -/
theorem splitOnce_eq_none {sep : UInt8} {s : Str} : splitOnce sep s = none ↔ sep ∉ s := by
  induction s with
  | nil => simp [splitOnce]
  | cons c s ih =>
    rw [splitOnce]
    by_cases hc : c = sep
    · simp [hc]
    · simp [hc, ih, Ne.symm hc]

/-- The text after the last occurrence of an ASCII character, or the whole text. -/
def afterLast (sep : UInt8) (s : Str) : Str := (s.reverse.takeWhile (· ≠ sep)).reverse

/-! ### Decimal numerals -/

/-- The decimal digits of a number. -/
def decimal (n : ℕ) : Str := (Nat.toDigits 10 n).map Char.toUInt8

/-- The value of a digit string. -/
def digitsValue (s : Str) : ℕ := s.foldl (fun n c => n * 10 + (c.toNat - 48)) 0

/-- `str::parse::<u64>`: an optional plus sign, then digits, within range. -/
def parseU64 (s : Str) : Option ℕ :=
  let digits := (stripPrefix "+" s).getD s
  if digits ≠ [] ∧ digits.all isAsciiDigit ∧ digitsValue digits < 2 ^ 64 then
    some (digitsValue digits)
  else none

/-! ### UTF-8 -/

/-- The ranges of the continuation bytes owed after a leading byte. -/
def utf8Owed (c : UInt8) : Option (List (UInt8 × UInt8)) :=
  if c ≤ 0x7F then some []
  else if c < 0xC2 then none
  else if c ≤ 0xDF then some [(0x80, 0xBF)]
  else if c = 0xE0 then some [(0xA0, 0xBF), (0x80, 0xBF)]
  else if c = 0xED then some [(0x80, 0x9F), (0x80, 0xBF)]
  else if c ≤ 0xEF then some [(0x80, 0xBF), (0x80, 0xBF)]
  else if c = 0xF0 then some [(0x90, 0xBF), (0x80, 0xBF), (0x80, 0xBF)]
  else if c ≤ 0xF3 then some [(0x80, 0xBF), (0x80, 0xBF), (0x80, 0xBF)]
  else if c = 0xF4 then some [(0x80, 0x8F), (0x80, 0xBF), (0x80, 0xBF)]
  else none

/-- The bytes pay what is owed and go on as whole characters. -/
def utf8From : List (UInt8 × UInt8) → Bytes → Bool
  | [], [] => true
  | _ :: _, [] => false
  | (lo, hi) :: owed, c :: rest => lo ≤ c && c ≤ hi && utf8From owed rest
  | [], c :: rest =>
    match utf8Owed c with
    | some owed => utf8From owed rest
    | none => false

/-- The bytes are valid UTF-8. -/
def isUtf8 (s : Bytes) : Bool := utf8From [] s

end MtaHooks
