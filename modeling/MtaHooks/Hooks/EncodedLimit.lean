import MtaHooks.Hooks.Invoke
import MtaHooks.Hooks.Mta
import MtaHooks.Lib.GroupLength
import MtaHooks.Protocol.Checked

namespace MtaHooks

open GroupLength

/-!
# The limits on base64 texts

A replacement is refused by the length of its text before it is decoded, and a hook response by
its length before it is read.  Both limits are computed from the one on decoded messages, in
`usize` arithmetic whose first step saturates and whose others do not.

* `encodedLimit_eq`, `checkedEncodedLimit_iff`, `checkedHookLimit_iff` — the limit is the length
  of an encoding, modulo the words, and where the computations overflow;
* `decodeRaw_encode_eq_ok` / `decodeRaw_refuses` — replacements within the limit pass as long as
  nothing overflows, and a short one is refused as soon as the product does;
* `base64_bounds_iff` — the limits agree exactly below the edge of the words.
-/

/-- The lengths of the standard encoding: four symbols for three bytes, the last group padded. -/
structure Base64.Standard (b64 : Base64) : Prop where
  length_encode : ∀ raw, (b64.encode raw).length = encoded 3 4 raw.length
  length_decode : ∀ text raw, b64.decode text = some raw → raw.length ≤ encoded 4 3 text.length

namespace Hooks

/-- What the client allows for the rest of a response. -/
def responseLimit : ℕ := 1024 * 1024

/-- The limit on a hook response, as `invoke` computes it. -/
def hookLimit (limits : Limits) : ℕ := (encodedLimit limits + responseLimit) % (usizeMax + 1)

/-- The exchange of the client is read under the limit of its session. -/
theorem outcome_eq {c : Invoke.Client} (hlimit : c.responseLimit = responseLimit)
    (w : Invoke.World) :
    c.outcome w = Invoke.hook c.fromSlice (hookLimit c.session.limits) w.exchange := by
  rw [hookLimit, ← hlimit]
  rfl

end Hooks

/-! ### The limits with overflow checks -/

namespace Checked

/-- `m + n` of a `usize`. -/
def addUsize (m n : ℕ) : Result ℕ := okOr (checkedAdd m n) (.panic "addition overflow")

/-- `m * n` of a `usize`. -/
def mulUsize (m n : ℕ) : Result ℕ :=
  if m * n ≤ usizeMax then .ok (m * n) else .error (.panic "multiplication overflow")

/-- The longest base64 text of a message within the limit. -/
def encodedLimit (limits : Limits) : Result ℕ :=
  mulUsize (min (limits.messageBytes + 2) usizeMax / 3) 4

/-- The limit on a hook response. -/
def hookLimit (limits : Limits) : Result ℕ := do
  let limit ← encodedLimit limits
  addUsize limit Hooks.responseLimit

/-- An addition that fits is the sum. -/
theorem addUsize_eq_ok {m n r : ℕ} : addUsize m n = .ok r ↔ m + n ≤ usizeMax ∧ r = m + n := by
  unfold addUsize checkedAdd
  split <;> simp [*, eq_comm]

/-- A multiplication that fits is the product. -/
theorem mulUsize_eq_ok {m n r : ℕ} : mulUsize m n = .ok r ↔ m * n ≤ usizeMax ∧ r = m * n := by
  unfold mulUsize
  split <;> simp [*, eq_comm]

end Checked

namespace Hooks

/-! ### Arithmetic -/

/-- The machine word as a number of groups. -/
theorem words_eq : usizeMax + 1 = 4 * 2 ^ 62 := rfl

/-- The product does not overflow. -/
theorem encoded_fits_iff {n : ℕ} : encoded 3 4 n ≤ usizeMax ↔ n + 3 ≤ 3 * 2 ^ 62 := by
  rw [← Nat.lt_succ_iff, Nat.succ_eq_add_one, words_eq]
  exact encoded_lt_iff (by decide) (by decide)

/-- Neither the product nor the sum overflows. -/
theorem response_fits_iff {n : ℕ} :
    encoded 3 4 n + responseLimit ≤ usizeMax ↔ n + 3 ≤ 3 * (2 ^ 62 - 2 ^ 18) := by
  rw [← encoded_lt_iff (m := 4) (by decide) (by decide)]
  unfold responseLimit usizeMax
  omega

/-- The division rounds up: saturated, it has the same quotient. -/
theorem groups_eq {limits : Limits} (hmax : limits.messageBytes ≤ usizeMax) :
    min (limits.messageBytes + 2) usizeMax / 3 * 4 = encoded 3 4 limits.messageBytes := by
  have hwords : 3 ∣ usizeMax := by decide
  have hgroups : min (limits.messageBytes + 2) usizeMax / 3 = limits.messageBytes ⌈/⌉ 3 :=
    min_div_eq (by decide) hwords hmax
  rw [hgroups, encoded, Nat.mul_comm]

/-- **The limit on texts** is the length of the longest message, encoded, if that is a word. -/
theorem encodedLimit_eq {limits : Limits} (hmax : limits.messageBytes ≤ usizeMax) :
    encodedLimit limits = encoded 3 4 limits.messageBytes % (usizeMax + 1) := by
  rw [encodedLimit, groups_eq hmax]

/-- A limit that fits is the length of the encoding. -/
theorem encodedLimit_of_fits {limits : Limits} (h : limits.messageBytes + 3 ≤ 3 * 2 ^ 62) :
    encodedLimit limits = encoded 3 4 limits.messageBytes := by
  have hmax : limits.messageBytes ≤ usizeMax := by
    unfold usizeMax
    omega
  rw [encodedLimit_eq hmax]
  exact Nat.mod_eq_of_lt (Nat.lt_succ_of_le (encoded_fits_iff.mpr h))

/-- A limit that wraps is shorter. -/
theorem encodedLimit_le {limits : Limits} (hmax : limits.messageBytes ≤ usizeMax) :
    encodedLimit limits ≤ encoded 3 4 limits.messageBytes := by
  rw [encodedLimit_eq hmax]
  exact Nat.mod_le _ _

/-- A product that wraps leaves the groups behind the first wrap, less than half a wrap. -/
theorem encodedLimit_of_wraps {limits : Limits} (hmax : limits.messageBytes ≤ usizeMax)
    (hwraps : 3 * 2 ^ 62 < limits.messageBytes + 3) :
    ∃ q, encodedLimit limits = 4 * q ∧ 3 * (q + 2 ^ 62) < limits.messageBytes + 3 ∧
      q + 2 ^ 62 ≤ usizeMax / 3 := by
  have hhigh : limits.messageBytes ⌈/⌉ 3 ≤ usizeMax / 3 := by
    rw [ceilDiv_le_iff_le_mul (by decide)]
    exact hmax.trans (by decide)
  have hlow : 2 ^ 62 ≤ limits.messageBytes ⌈/⌉ 3 := by
    by_contra hlt
    have hle := (ceilDiv_le_iff_le_mul (by decide)).mp (Nat.le_sub_one_of_lt (not_le.mp hlt))
    omega
  obtain ⟨q, hq⟩ := Nat.exists_eq_add_of_le' hlow
  have hround : encoded 3 3 limits.messageBytes < limits.messageBytes + 3 :=
    encoded_self_lt (by decide) _
  rw [hq] at hhigh
  rw [encoded, hq] at hround
  refine ⟨q, ?_, hround, hhigh⟩
  rw [encodedLimit_eq hmax, encoded, hq, words_eq, Nat.mul_mod_mul_left, Nat.add_mod_right]
  congr 1
  apply Nat.mod_eq_of_lt
  unfold usizeMax at hhigh
  omega

/-- The limits that fit. -/
theorem checkedEncodedLimit_iff {limits : Limits} (hmax : limits.messageBytes ≤ usizeMax) :
    Checked.encodedLimit limits = .ok (encodedLimit limits) ↔
      limits.messageBytes + 3 ≤ 3 * 2 ^ 62 := by
  rw [Checked.encodedLimit, Checked.mulUsize_eq_ok, groups_eq hmax, ← encoded_fits_iff]
  refine and_iff_left_of_imp fun h => ?_
  exact encodedLimit_of_fits (encoded_fits_iff.mp h)

/-- The limits that fit with the room for the rest of the answer. -/
theorem checkedHookLimit_iff {limits : Limits} (hmax : limits.messageBytes ≤ usizeMax) :
    Checked.hookLimit limits = .ok (hookLimit limits) ↔
      limits.messageBytes + 3 ≤ 3 * (2 ^ 62 - 2 ^ 18) := by
  rw [← response_fits_iff]
  constructor
  · intro h
    obtain ⟨limit, hlimit, h⟩ := Result.bind_ok_iff.mp h
    obtain ⟨-, rfl⟩ := Checked.mulUsize_eq_ok.mp hlimit
    rw [groups_eq hmax] at h
    exact (Checked.addUsize_eq_ok.mp h).1
  · intro h
    have hfits : limits.messageBytes + 3 ≤ 3 * 2 ^ 62 := encoded_fits_iff.mp (by omega)
    refine Result.bind_ok_iff.mpr ⟨_, (checkedEncodedLimit_iff hmax).mpr hfits, ?_⟩
    rw [Checked.addUsize_eq_ok, hookLimit, encodedLimit_of_fits hfits]
    exact ⟨h, Nat.mod_eq_of_lt (Nat.lt_succ_of_le h)⟩

/-! ### Replacements -/

/-- A text within the limit is decoded, and a message within the limit is kept. -/
theorem decodeRaw_eq_ok {b64 : Base64} {limits : Limits} {raw : Bytes}
    (htext : (b64.encode raw).length ≤ encodedLimit limits)
    (hraw : raw.length ≤ limits.messageBytes) :
    decodeRaw b64 limits (.string (b64.encode raw)) = .ok raw := by
  refine Result.bind_ok_iff.mpr ⟨_, rfl, ?_⟩
  refine Result.bind_ok_iff.mpr ⟨(), rejectIf_eq_ok.mpr (Nat.not_lt_of_le htext), ?_⟩
  refine Result.bind_ok_iff.mpr ⟨raw, okOr_eq_ok.mpr (b64.decode_encode raw), ?_⟩
  exact Result.bind_ok_iff.mpr ⟨(), rejectIf_eq_ok.mpr (Nat.not_lt_of_le hraw), rfl⟩

/-- A text over the limit is refused. -/
theorem decodeRaw_eq_error {b64 : Base64} {limits : Limits} {text : Str}
    (htext : encodedLimit limits < text.length) :
    decodeRaw b64 limits (.string text) = .error (.limit "replacement message") := by
  refine Result.bind_error_iff.mpr (.inr ⟨text, rfl, ?_⟩)
  exact Result.bind_error_iff.mpr (.inl (if_pos htext))

/-- **No replacement within the limit is refused** while the product does not overflow. -/
theorem decodeRaw_encode_eq_ok {b64 : Base64}
    (hencode : ∀ raw, (b64.encode raw).length = encoded 3 4 raw.length) {limits : Limits}
    (hfits : limits.messageBytes + 3 ≤ 3 * 2 ^ 62) {raw : Bytes}
    (hraw : raw.length ≤ limits.messageBytes) :
    decodeRaw b64 limits (.string (b64.encode raw)) = .ok raw := by
  apply decodeRaw_eq_ok _ hraw
  rw [hencode, encodedLimit_of_fits hfits]
  exact encoded_mono (by decide) 4 hraw

/-- **Once the product overflows a replacement within the limit is refused**, one whose text a
    machine can hold. -/
theorem decodeRaw_refuses {b64 : Base64}
    (hencode : ∀ raw, (b64.encode raw).length = encoded 3 4 raw.length) {limits : Limits}
    (hmax : limits.messageBytes ≤ usizeMax) (hover : 3 * 2 ^ 62 < limits.messageBytes + 3) :
    ∃ raw, raw.length ≤ limits.messageBytes ∧ (b64.encode raw).length < 2 ^ 63 ∧
      decodeRaw b64 limits (.string (b64.encode raw)) =
        .error (.limit "replacement message") := by
  obtain ⟨q, hlimit, hround, hhigh⟩ := encodedLimit_of_wraps hmax hover
  -- One byte more than the groups that are left.
  refine ⟨List.replicate (3 * q + 1) 0, ?_, ?_, ?_⟩
  · rw [List.length_replicate]
    omega
  · have hle : encoded 3 4 (3 * q + 1) ≤ 4 * (q + 1) :=
      (encoded_le_iff (by decide) (by decide)).mpr (by omega)
    rw [hencode, List.length_replicate]
    unfold usizeMax at hhigh
    omega
  · apply decodeRaw_eq_error
    rw [hlimit, hencode, List.length_replicate, ← not_le,
      encoded_le_iff (by decide) (by decide)]
    omega

/-- A text within the limit does not decode to much more than a message. -/
theorem length_decode_le {b64 : Base64} (hb64 : b64.Standard) {limits : Limits}
    (hmax : limits.messageBytes ≤ usizeMax) {text : Str} {raw : Bytes}
    (htext : text.length ≤ encodedLimit limits) (hraw : b64.decode text = some raw) :
    raw.length ≤ limits.messageBytes + 2 := by
  have hround : encoded 4 3 (encoded 3 4 limits.messageBytes) < limits.messageBytes + 3 := by
    rw [encoded_encoded (by decide)]
    exact encoded_self_lt (by decide) _
  have hle : raw.length ≤ encoded 4 3 (encoded 3 4 limits.messageBytes) :=
    calc raw.length
        ≤ encoded 4 3 text.length := hb64.length_decode text raw hraw
      _ ≤ encoded 4 3 (encoded 3 4 limits.messageBytes) :=
          encoded_mono (by decide) 3 (htext.trans (encodedLimit_le hmax))
  omega

/-! ### Responses -/

/-- An accepted replacement is within the limit. -/
theorem length_le_of_accepted {b64 : Base64} {session : Session} {text : Str}
    {ms : List Modification} (h : rawReplacement b64 (.string text) session = .ok ms) :
    text.length ≤ encodedLimit session.limits := by
  obtain ⟨raw, hraw, -⟩ := Result.bind_ok_iff.mp h
  obtain ⟨encoded, hencoded, hraw⟩ := Result.bind_ok_iff.mp hraw
  obtain rfl := Except.ok.inj hencoded
  obtain ⟨_, hfits, -⟩ := Result.bind_ok_iff.mp hraw
  exact Nat.le_of_not_lt (rejectIf_eq_ok.mp hfits)

/-- The sum of the limit on responses wraps only if the product does not. -/
theorem hookLimit_fits_iff {limits : Limits} (hmax : limits.messageBytes ≤ usizeMax) :
    encodedLimit limits + responseLimit ≤ usizeMax ↔
      limits.messageBytes + 3 ≤ 3 * (2 ^ 62 - 2 ^ 18) ∨
        3 * 2 ^ 62 < limits.messageBytes + 3 := by
  by_cases hfits : limits.messageBytes + 3 ≤ 3 * 2 ^ 62
  · rw [encodedLimit_of_fits hfits, response_fits_iff]
    omega
  · obtain ⟨q, hlimit, -, hhigh⟩ := encodedLimit_of_wraps hmax (Nat.lt_of_not_le hfits)
    rw [hlimit]
    unfold usizeMax responseLimit at *
    omega

/-- **The limit on responses leaves room** for an accepted replacement and the rest of a response
    iff the sum does not wrap. -/
theorem hookLimit_covers_iff {b64 : Base64} {session : Session} {text : Str}
    {ms : List Modification} (hmax : session.limits.messageBytes ≤ usizeMax)
    (h : rawReplacement b64 (.string text) session = .ok ms) :
    text.length + responseLimit ≤ hookLimit session.limits ↔
      session.limits.messageBytes + 3 ≤ 3 * (2 ^ 62 - 2 ^ 18) ∨
        3 * 2 ^ 62 < session.limits.messageBytes + 3 := by
  have hword : encodedLimit session.limits < usizeMax + 1 := by
    rw [encodedLimit_eq hmax]
    exact Nat.mod_lt _ (Nat.succ_pos _)
  rw [hookLimit, add_le_wrapped_iff hword (length_le_of_accepted h), Nat.lt_succ_iff,
    hookLimit_fits_iff hmax]

/-! ### The limits together -/

/-- The limits on texts and responses agree with the one on decoded messages. -/
structure BoundsAgree (b64 : Base64) (limits : Limits) : Prop where
  /-- No replacement within the limit is refused. -/
  accepts : ∀ raw, raw.length ≤ limits.messageBytes →
    decodeRaw b64 limits (.string (b64.encode raw)) = .ok raw
  /-- What is decoded is at most two bytes over the limit. -/
  decodes : ∀ text raw, text.length ≤ encodedLimit limits → b64.decode text = some raw →
    raw.length ≤ limits.messageBytes + 2
  /-- A response with an accepted replacement fits. -/
  responds : ∀ session text ms, session.limits = limits →
    rawReplacement b64 (.string text) session = .ok ms →
    text.length + responseLimit ≤ hookLimit limits
  /-- Nothing overflows. -/
  exact : Checked.encodedLimit limits = .ok (encodedLimit limits) ∧
    Checked.hookLimit limits = .ok (hookLimit limits)

/-- **The limits agree** exactly below the edge of the words.  Up to the wrap of the product no
    replacement within the limit is refused, from it on a short one is; an accepted replacement
    has its room in the response unless the sum wraps. -/
theorem base64_bounds_iff {b64 : Base64} (hb64 : b64.Standard) {limits : Limits}
    (hmax : limits.messageBytes ≤ usizeMax) :
    (BoundsAgree b64 limits ↔ limits.messageBytes + 3 ≤ 3 * (2 ^ 62 - 2 ^ 18)) ∧
    -- the limit on texts, for texts that a machine can hold
    ((∀ raw, raw.length ≤ limits.messageBytes → (b64.encode raw).length < 2 ^ 63 →
        decodeRaw b64 limits (.string (b64.encode raw)) = .ok raw) ↔
      limits.messageBytes + 3 ≤ 3 * 2 ^ 62) ∧
    -- the limit on responses
    ∀ session text ms, session.limits = limits →
      rawReplacement b64 (.string text) session = .ok ms →
      (text.length + responseLimit ≤ hookLimit limits ↔
        limits.messageBytes + 3 ≤ 3 * (2 ^ 62 - 2 ^ 18) ∨
          3 * 2 ^ 62 < limits.messageBytes + 3) := by
  refine ⟨⟨fun h => (checkedHookLimit_iff hmax).mp h.exact.2, fun hfits => ?_⟩,
    ⟨fun h => ?_, fun hfits raw hraw _ => ?_⟩, ?_⟩
  · have hproduct : limits.messageBytes + 3 ≤ 3 * 2 ^ 62 := by omega
    refine
      { accepts := fun raw hraw => decodeRaw_encode_eq_ok hb64.length_encode hproduct hraw
        decodes := fun text raw htext hraw => length_decode_le hb64 hmax htext hraw
        responds := ?_
        exact := ⟨(checkedEncodedLimit_iff hmax).mpr hproduct,
          (checkedHookLimit_iff hmax).mpr hfits⟩ }
    rintro session text ms rfl h
    exact (hookLimit_covers_iff hmax h).mpr (.inl hfits)
  · by_contra hover
    obtain ⟨raw, hraw, htext, hrefused⟩ :=
      decodeRaw_refuses hb64.length_encode hmax (Nat.lt_of_not_le hover)
    exact nomatch hrefused.symm.trans (h raw hraw htext)
  · exact decodeRaw_encode_eq_ok hb64.length_encode hfits hraw
  · rintro session text ms rfl h
    exact hookLimit_covers_iff hmax h

/-- The encoding of the sample is the standard one. -/
theorem standard_base64 : Sample.base64.Standard where
  length_encode raw := by
    rw [encoded_eq]
    exact StandardBase64.length_encode raw
  length_decode text raw h := by
    have hle := StandardBase64.length_decode h
    rw [encoded_eq]
    omega

/-- The defaults fit. -/
theorem base64_bounds_iff_at_defaults : BoundsAgree Sample.base64 {} :=
  (base64_bounds_iff standard_base64 (by decide)).1.mpr (by decide)

/-- The least limit whose product wraps. -/
def vastLimits : Limits := { messageBytes := 3 * 2 ^ 62 - 2 }

/-- The least limit whose sum wraps. -/
def edgeLimits : Limits := { messageBytes := 3 * (2 ^ 62 - 2 ^ 18) - 2 }

/-- A message without headers at its end, under the given limits. -/
def endUnder (limits : Limits) : Session :=
  Machine.after Session.call (.new limits [.endMessage] supportedActions)
    ([Sample.offer, Sample.connect, Sample.mail, Sample.rcpt "<b>", Sample.data, Sample.endHeaders,
      Sample.endMessage].map .receive)

/-- The response that replaces the message by the empty one. -/
def emptyReplacement : Json :=
  Sample.response [Sample.setOp "/rawMessage" (.string (Sample.base64.encode "\r\n"))] [] []

/-- The world that answers the hook with an empty object. -/
def emptyAnswer : Invoke.World where
  exchange := .ok
    { status := 200, contentType := some (ascii "application/json"), chunks := [ascii "\x7b\x7d"] }
  registered := .error (.invalid "unused")
  timestamp := []
  now := 0
  random := 0

/-- With a limit near the machine word an empty replacement, or any answer, is refused. -/
theorem shortReplacement_refused :
    ¬ BoundsAgree Sample.base64 vastLimits ∧ ¬ BoundsAgree Sample.base64 edgeLimits ∧
    -- the empty replacement under the one limit, any answer under the other
    (endUnder vastLimits).pending = some .endMessage ∧ encodedLimit vastLimits = 0 ∧
    translate Sample.base64 emptyReplacement (endUnder vastLimits) .endMessage =
      .error (.limit "replacement message") ∧
    hookLimit edgeLimits = 0 ∧
    Invoke.Client.outcome
        { b64 := Sample.base64, fromSlice := fun _ => some (.object []), retries := 0,
          session := endUnder edgeLimits, stage := .endMessage } emptyAnswer =
      .error { error := .limit "HTTP response" } := by
  refine ⟨fun h => ?_, fun h => ?_, by decide +kernel, by decide +kernel, by decide +kernel,
    by decide +kernel, ?_⟩
  · exact absurd ((checkedHookLimit_iff (by decide)).mp h.exact.2) (by decide)
  · exact absurd ((checkedHookLimit_iff (by decide)).mp h.exact.2) (by decide)
  · have hlimit : hookLimit (endUnder edgeLimits).limits = 0 := by decide +kernel
    rw [outcome_eq rfl, hlimit]
    rfl

end Hooks

end MtaHooks
