import MtaHooks.Protocol.Wire

namespace MtaHooks

/-!
# Integers and strings on the wire

The payloads of the protocol are built from big-endian words and NUL-terminated strings; here are
the lemmas about both that readers and writers of frames share.

* `fromBeBytes_toBeBytes` / `toBeBytes_fromBeBytes` — the four bytes of a word;
* `strings_eq_ok` — a payload splits into strings exactly when it is their NUL-terminated
  sequence, and no string has a NUL;
* `stringFrame_eq_ok` — the frame of the strings, when it exists.
-/

/-! ### Integers -/

/-- The value of four big-endian bytes. -/
theorem fromBeBytes_toNat (w x y z : UInt8) :
    (fromBeBytes w x y z).toNat =
      w.toNat * 2 ^ 24 + (x.toNat * 2 ^ 16 + (y.toNat * 2 ^ 8 + z.toNat)) := by
  have hw := w.toNat_lt
  have hx := x.toNat_lt
  have hy := y.toNat_lt
  have hz := z.toNat_lt
  have hyz : y.toNat <<< 8 ||| z.toNat = y.toNat * 2 ^ 8 + z.toNat := by
    rw [Nat.shiftLeft_eq, Nat.mul_comm, ← Nat.two_pow_add_eq_or_of_lt hz]
  have hxyz : x.toNat <<< 16 ||| (y.toNat * 2 ^ 8 + z.toNat) =
      x.toNat * 2 ^ 16 + (y.toNat * 2 ^ 8 + z.toNat) := by
    rw [Nat.shiftLeft_eq, Nat.mul_comm, ← Nat.two_pow_add_eq_or_of_lt (by omega)]
  have hall : w.toNat <<< 24 ||| (x.toNat * 2 ^ 16 + (y.toNat * 2 ^ 8 + z.toNat)) =
      w.toNat * 2 ^ 24 + (x.toNat * 2 ^ 16 + (y.toNat * 2 ^ 8 + z.toNat)) := by
    rw [Nat.shiftLeft_eq, Nat.mul_comm, ← Nat.two_pow_add_eq_or_of_lt (by omega)]
  have hfits : w.toNat <<< 24 < 2 ^ 32 ∧ x.toNat <<< 16 < 2 ^ 32 ∧ y.toNat <<< 8 < 2 ^ 32 := by
    simp only [Nat.shiftLeft_eq]
    omega
  unfold fromBeBytes
  simp only [UInt32.toNat_or, UInt32.toNat_shiftLeft, UInt8.toNat_toUInt32]
  show w.toNat <<< 24 % 2 ^ 32 ||| x.toNat <<< 16 % 2 ^ 32 ||| y.toNat <<< 8 % 2 ^ 32 |||
    z.toNat = _
  rw [Nat.mod_eq_of_lt hfits.1, Nat.mod_eq_of_lt hfits.2.1, Nat.mod_eq_of_lt hfits.2.2,
    Nat.or_assoc, Nat.or_assoc, hyz, hxyz, hall]

/-- A number is read back from its bytes. -/
theorem fromBeBytes_toBeBytes {n : UInt32} {w x y z : UInt8} (h : toBeBytes n = [w, x, y, z]) :
    fromBeBytes w x y z = n := by
  simp only [toBeBytes, List.cons.injEq, and_true] at h
  obtain ⟨rfl, rfl, rfl, rfl⟩ := h
  have hn := n.toNat_lt
  refine UInt32.toNat_inj.mp ?_
  rw [fromBeBytes_toNat]
  simp only [UInt32.toNat_toUInt8, UInt32.toNat_shiftRight, Nat.shiftRight_eq_div_pow]
  show n.toNat / 2 ^ 24 % 2 ^ 8 * 2 ^ 24 + (n.toNat / 2 ^ 16 % 2 ^ 8 * 2 ^ 16 +
    (n.toNat / 2 ^ 8 % 2 ^ 8 * 2 ^ 8 + n.toNat % 2 ^ 8)) = n.toNat
  omega

/-- Bytes are those of the number that is read from them. -/
theorem toBeBytes_fromBeBytes (w x y z : UInt8) :
    toBeBytes (fromBeBytes w x y z) = [w, x, y, z] := by
  have hw := w.toNat_lt
  have hx := x.toNat_lt
  have hy := y.toNat_lt
  have hz := z.toNat_lt
  have hn := fromBeBytes_toNat w x y z
  have hbyte : ∀ (b : UInt8) (k : UInt32) (m : ℕ), k.toNat % 32 = m →
      (fromBeBytes w x y z).toNat / 2 ^ m % 2 ^ 8 = b.toNat →
        (fromBeBytes w x y z >>> k).toUInt8 = b := by
    intro b k m hk hb
    refine UInt8.toNat_inj.mp ?_
    rw [UInt32.toNat_toUInt8, UInt32.toNat_shiftRight, Nat.shiftRight_eq_div_pow, hk]
    exact hb
  have hlast : (fromBeBytes w x y z).toUInt8 = z := by
    refine UInt8.toNat_inj.mp ?_
    rw [UInt32.toNat_toUInt8, hn]
    omega
  unfold toBeBytes
  rw [hbyte w 24 24 rfl (by rw [hn]; omega), hbyte x 16 16 rfl (by rw [hn]; omega),
    hbyte y 8 8 rfl (by rw [hn]; omega), hlast]

/-- A number takes four bytes. -/
@[simp] theorem length_toBeBytes (n : UInt32) : (toBeBytes n).length = 4 := rfl

/-- `u16::to_be_bytes`. -/
def portBytes (port : UInt16) : Bytes := [(port >>> 8).toUInt8, port.toUInt8]

/-- `u16::from_be_bytes`. -/
theorem portBytes_eq_iff {hi lo : UInt8} {port : UInt16} :
    portBytes port = [hi, lo] ↔ hi.toUInt16 <<< 8 ||| lo.toUInt16 = port := by
  have hhi := hi.toNat_lt
  have hlo := lo.toNat_lt
  have hport := port.toNat_lt
  have hvalue : (hi.toUInt16 <<< 8 ||| lo.toUInt16).toNat = hi.toNat * 2 ^ 8 + lo.toNat := by
    have hfits : hi.toNat <<< 8 < 2 ^ 16 := by
      rw [Nat.shiftLeft_eq]
      omega
    simp only [UInt16.toNat_or, UInt16.toNat_shiftLeft, UInt8.toNat_toUInt16]
    show hi.toNat <<< 8 % 2 ^ 16 ||| lo.toNat = _
    rw [Nat.mod_eq_of_lt hfits, Nat.shiftLeft_eq, Nat.mul_comm, ← Nat.two_pow_add_eq_or_of_lt hlo]
  have hhigh : (port >>> 8).toUInt8.toNat = port.toNat / 2 ^ 8 % 2 ^ 8 := by
    rw [UInt16.toNat_toUInt8, UInt16.toNat_shiftRight, Nat.shiftRight_eq_div_pow]
    rfl
  have hlow : port.toUInt8.toNat = port.toNat % 2 ^ 8 := UInt16.toNat_toUInt8 _
  simp only [portBytes, List.cons.injEq, and_true]
  rw [← UInt8.toNat_inj, ← UInt8.toNat_inj, ← UInt16.toNat_inj, hvalue, hhigh, hlow]
  omega

/-! ### Strings -/

/-- Strings, each closed by a NUL. -/
def terminated (values : List Bytes) : Bytes := values.flatMap (· ++ [0])

@[simp] theorem terminated_nil : terminated [] = [] := rfl

@[simp] theorem terminated_cons (value : Bytes) (values : List Bytes) :
    terminated (value :: values) = value ++ 0 :: terminated values := by
  simp [terminated]

/-- A string without NUL goes to the string begun before it. -/
theorem nulFields_append {value rest current : Bytes} (h : (0 : UInt8) ∉ value) :
    nulFields current (value ++ 0 :: rest) = (current ++ value) :: nulFields [] rest := by
  induction value generalizing current with
  | nil => simp [nulFields]
  | cons c value ih =>
    rw [List.mem_cons, not_or] at h
    rw [List.cons_append, nulFields, if_neg (Ne.symm h.1), ih h.2, List.append_assoc]
    rfl

/-- Terminated strings are read back. -/
theorem nulFields_terminated {values : List Bytes} (h : ∀ v ∈ values, (0 : UInt8) ∉ v) :
    nulFields [] (terminated values) = values := by
  induction values with
  | nil => rfl
  | cons value values ih =>
    rw [terminated_cons, nulFields_append (h value List.mem_cons_self), List.nil_append,
      ih fun v hv => h v (List.mem_cons_of_mem _ hv)]

/-- Strings that are read are terminated in the payload, and have no terminator inside. -/
theorem terminated_nulFields {p current : Bytes} (h : p.getLast? = some 0)
    (hcurrent : (0 : UInt8) ∉ current) :
    terminated (nulFields current p) = current ++ p ∧
      ∀ v ∈ nulFields current p, (0 : UInt8) ∉ v := by
  induction p generalizing current with
  | nil => exact nomatch h
  | cons c rest ih =>
    unfold nulFields
    by_cases hc : c = 0
    · subst hc
      rw [if_pos rfl, terminated_cons]
      cases rest with
      | nil =>
        refine ⟨rfl, fun v hv => ?_⟩
        rw [List.mem_singleton.mp hv]
        exact hcurrent
      | cons d rest =>
        rw [List.getLast?_cons_cons] at h
        obtain ⟨heq, hfree⟩ := ih h (List.not_mem_nil)
        rw [heq]
        refine ⟨rfl, fun v hv => ?_⟩
        rcases List.mem_cons.mp hv with rfl | hv
        · exact hcurrent
        · exact hfree v hv
    · rw [if_neg hc]
      cases rest with
      | nil => exact absurd (Option.some.inj h) hc
      | cons d rest =>
        rw [List.getLast?_cons_cons] at h
        have hnext : (0 : UInt8) ∉ current ++ [c] := by
          rw [List.mem_append, List.mem_singleton, not_or]
          exact ⟨hcurrent, Ne.symm hc⟩
        obtain ⟨heq, hfree⟩ := ih h hnext
        exact ⟨by rw [heq, List.append_assoc]; rfl, hfree⟩

/-- Terminated strings end with a terminator. -/
theorem getLast?_terminated {values : List Bytes} (h : values ≠ []) :
    (terminated values).getLast? = some 0 := by
  obtain ⟨init, last, rfl⟩ := (List.eq_nil_or_concat values).resolve_left h
  simp [terminated]

/-- **The strings of a payload.** -/
theorem strings_eq_ok {p : Bytes} {values : List Bytes} :
    strings p = .ok values ↔ p = terminated values ∧ ∀ v ∈ values, (0 : UInt8) ∉ v := by
  unfold strings
  constructor
  · intro h
    rcases Result.ite_ok h with ⟨hempty, h⟩ | ⟨-, h⟩
    · obtain rfl := Except.ok.inj h
      exact ⟨List.isEmpty_iff.mp hempty, fun _ hv => nomatch hv⟩
    rcases Result.ite_ok h with ⟨-, h⟩ | ⟨hlast, h⟩
    · exact nomatch h
    · obtain rfl := Except.ok.inj h
      obtain ⟨heq, hfree⟩ := terminated_nulFields (not_not.mp hlast) List.not_mem_nil
      exact ⟨heq.symm, hfree⟩
  · rintro ⟨rfl, hfree⟩
    cases values with
    | nil => rfl
    | cons value values =>
      have hnonempty : (terminated (value :: values)).isEmpty = false := by
        rw [terminated_cons]
        cases value <;> rfl
      rw [hnonempty, if_neg (by simp), getLast?_terminated (by simp), if_neg (by simp),
        nulFields_terminated hfree]

/-- **The frame of strings.** -/
theorem stringFrame_eq_ok {command : UInt8} {values : List Bytes} {f : Frame} :
    stringFrame command values = .ok f ↔
      (∀ v ∈ values, (0 : UInt8) ∉ v) ∧ f = ⟨command, terminated values⟩ := by
  have hloop : ∀ (values : List Bytes) (start p : Bytes),
      values.foldlM (fun p value =>
        if (0 : UInt8) ∈ value then (.error (.invalid "NUL in response") : Result Bytes)
        else .ok (p ++ value ++ [0])) start = .ok p ↔
      (∀ v ∈ values, (0 : UInt8) ∉ v) ∧ p = start ++ terminated values := by
    intro values
    induction values with
    | nil =>
      intro start p
      simp only [List.foldlM_nil, terminated_nil, List.append_nil]
      exact ⟨fun h => ⟨fun _ hv => (nomatch hv), (Except.ok.inj h).symm⟩, fun h => h.2 ▸ rfl⟩
    | cons value values ih =>
      intro start p
      rw [List.foldlM_cons, Result.bind_ok_iff]
      by_cases hvalue : (0 : UInt8) ∈ value
      · simp [hvalue]
      · have hsplit : start ++ value ++ [0] ++ terminated values =
            start ++ terminated (value :: values) := by simp
        simp only [hvalue, if_false, Except.ok.injEq, exists_eq_left', List.mem_cons,
          forall_eq_or_imp, not_false_eq_true, true_and]
        rw [ih, hsplit]
  unfold stringFrame
  rw [Result.bind_ok_iff]
  constructor
  · rintro ⟨p, hp, h⟩
    obtain ⟨hfree, rfl⟩ := (hloop values [] p).mp hp
    exact ⟨hfree, (Except.ok.inj h).symm⟩
  · rintro ⟨hfree, rfl⟩
    exact ⟨_, (hloop values [] _).mpr ⟨hfree, rfl⟩, rfl⟩

end MtaHooks
