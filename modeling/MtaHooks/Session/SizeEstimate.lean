import MtaHooks.Protocol.Checked
import MtaHooks.Protocol.ReadBack
import MtaHooks.Session.Output

namespace MtaHooks

open FallibleState

/-!
# The size estimate of a decision

Before `complete` encodes a modification it adds the estimate of its payload to the bytes
written so far.  The estimate is the size of the encoding, except for a raw header without the
leading-space negotiation: the space that the MTA puts in by itself is counted, but not sent.

* `payloadParts_sum` — the estimate against the frames;
* `foldlM_estimates` — the loop of `complete` over modifications that encode;
* `overEstimated_iff` — the estimates exceed the budget where the frames do, or at the edge;
* `estimates_exact_iff` — where estimate and encoding agree.
-/

namespace Modification

/-! ### One modification -/

/-- The payload bytes that are estimated and not sent: the implied space of a raw header. -/
def impliedSpace (leadingSpace : Bool) (m : Modification) : ℕ := (m.isRaw && !leadingSpace).toNat

/-- The length of a value on the wire. -/
theorem length_wireValue (ls : Bool) (value : Str) :
    (wireValue ls value).length = value.length + (ls && !value.isEmpty).toNat := by
  unfold wireValue
  by_cases h : (ls && !value.isEmpty) = true
  · simp [h]
  · simp [h]

/-- The length of a raw value on the wire. -/
theorem length_rawWireValue {ls : Bool} {value wire : Str} (h : rawWireValue ls value = .ok wire) :
    wire.length + (!ls).toNat = value.length := by
  unfold rawWireValue at h
  cases ls with
  | true => simp [Except.ok.inj h]
  | false =>
    have hstrip := stripPrefix_eq_some.mp (okOr_eq_ok.mp h)
    rw [hstrip, List.length_append, Nat.add_comm]
    rfl

/-- The payload of a header. -/
theorem headerFrame_total {c : UInt8} {index : Option UInt32} {name value : Str} {fs : List Frame}
    (h : headerFrame c index name value = .ok fs) :
    Session.payloadTotal fs = name.length + value.length + 2 + 4 * index.isSome.toNat := by
  obtain ⟨f, hf, rfl⟩ := stringFrame_of_headerFrame h
  have hpayload : f.payload.length = name.length + value.length + 2 := by
    simp [(stringFrame_eq_ok.mp hf).2]
    omega
  cases index with
  | none => simp [Session.payloadTotal, hpayload]
  | some i => simp [Session.payloadTotal, hpayload, toBeBytes]

/-- The payload of an address. -/
theorem envelopeFrame_total {c : UInt8} {address : Str} {parameters : Option Str}
    {fs : List Frame} (h : envelopeFrame c address parameters = .ok fs) :
    Session.payloadTotal fs =
      address.length + (parameters.map List.length).getD 0 + 1 + parameters.isSome.toNat := by
  obtain ⟨f, hf, rfl⟩ := stringFrame_of_envelopeFrame h
  cases parameters with
  | none => simp [Session.payloadTotal, (stringFrame_eq_ok.mp hf).2]
  | some p =>
    simp [Session.payloadTotal, (stringFrame_eq_ok.mp hf).2]
    omega

/-- The payload of a text. -/
theorem oneString_total {c : UInt8} {s : Str} {fs : List Frame}
    (h : (do clean s; let f ← stringFrame c [s]; return [f]) = (.ok fs : Result (List Frame))) :
    Session.payloadTotal fs = s.length + 1 := by
  obtain ⟨f, hf, rfl⟩ := stringFrame_of_text h
  simp [Session.payloadTotal, (stringFrame_eq_ok.mp hf).2]

/-- The frames of a body carry the body. -/
theorem replaceBody_total {ls : Bool} {body : Bytes} {fs : List Frame}
    (h : (replaceBody body).frames ls = .ok fs) : Session.payloadTotal fs = body.length := by
  have hbody := (frames_replaceBody h).2.2.1
  rw [← hbody, List.length_flatMap]
  rfl

/-- **The estimate against the frames.** -/
theorem payloadParts_sum {ls : Bool} {m : Modification} {fs : List Frame}
    (h : m.frames ls = .ok fs) :
    (m.payloadParts ls).sum = Session.payloadTotal fs + m.impliedSpace ls := by
  cases m with
  | insertRawHeader index name value =>
    obtain ⟨_, -, h⟩ := Result.bind_ok_iff.mp h
    obtain ⟨_, -, h⟩ := Result.bind_ok_iff.mp h
    obtain ⟨wire, hwire, h⟩ := Result.bind_ok_iff.mp h
    -- Here the space taken off the value is still in its length.
    have hlength := length_rawWireValue hwire
    rw [headerFrame_total h]
    simp [payloadParts, impliedSpace, isRaw]
    omega
  | replaceBody body => simp [payloadParts, impliedSpace, isRaw, replaceBody_total h]
  | addHeader name value =>
    obtain ⟨_, -, h⟩ := Result.bind_ok_iff.mp h
    obtain ⟨_, -, h⟩ := Result.bind_ok_iff.mp h
    rw [headerFrame_total h, length_wireValue]
    simp [payloadParts, impliedSpace, isRaw]
    omega
  | insertHeader index name value =>
    obtain ⟨_, -, h⟩ := Result.bind_ok_iff.mp h
    obtain ⟨_, -, h⟩ := Result.bind_ok_iff.mp h
    rw [headerFrame_total h, length_wireValue]
    simp [payloadParts, impliedSpace, isRaw]
    omega
  | changeHeader occurrence name value =>
    obtain ⟨_, -, h⟩ := Result.bind_ok_iff.mp h
    obtain ⟨_, -, h⟩ := Result.bind_ok_iff.mp h
    obtain ⟨_, -, h⟩ := Result.bind_ok_iff.mp h
    rw [headerFrame_total h, length_wireValue]
    simp [payloadParts, impliedSpace, isRaw]
    omega
  | changeFrom address parameters =>
    rw [envelopeFrame_total h]
    simp [payloadParts, impliedSpace, isRaw]
    omega
  | addRecipient address parameters =>
    rw [envelopeFrame_total h]
    simp [payloadParts, impliedSpace, isRaw]
    omega
  | deleteRecipient s => simp [payloadParts, impliedSpace, isRaw, oneString_total h]
  | quarantine s => simp [payloadParts, impliedSpace, isRaw, oneString_total h]

/-- Only the empty body sends no payload. -/
theorem eq_emptyBody {ls : Bool} {m : Modification} {fs : List Frame} (h : m.frames ls = .ok fs)
    (hempty : Session.payloadTotal fs = 0) : m = .replaceBody [] := by
  have hsum := payloadParts_sum h
  rw [hempty, Nat.zero_add] at hsum
  cases m with
  | replaceBody body =>
    have hlength : body.length = 0 := by rw [← replaceBody_total h, hempty]
    rw [List.eq_nil_of_length_eq_zero hlength]
  | insertRawHeader =>
    have hspace : (!ls).toNat ≤ 1 := Bool.toNat_le _
    simp [payloadParts, impliedSpace, isRaw] at hsum
    omega
  | _ => simp [payloadParts, impliedSpace, isRaw] at hsum

/-- A checked sum is the sum, while it fits a machine word. -/
theorem foldlM_checkedAdd {e : Error} (parts : List ℕ) (n : ℕ) (hn : n ≤ usizeMax) :
    parts.foldlM (fun n part => okOr (checkedAdd n part) e) n =
      okOr (checkedAdd n parts.sum) e := by
  induction parts generalizing n with
  | nil => simp [checkedAdd, hn]; rfl
  | cons part parts ih =>
    rw [List.foldlM_cons, List.sum_cons]
    by_cases hfits : n + part ≤ usizeMax
    · have hstep : checkedAdd n part = some (n + part) := if_pos hfits
      rw [hstep]
      show parts.foldlM _ (n + part) = _
      rw [ih _ hfits]
      simp only [checkedAdd, Nat.add_assoc]
    · -- The overflow of a part is one of the sum.
      have hstep : checkedAdd n part = none := if_neg hfits
      have hsum : checkedAdd n (part + parts.sum) = none := if_neg (by omega)
      rw [hstep, hsum]
      rfl

/-- The estimate of a modification that encodes. -/
theorem payloadBytes_of_frames {ls : Bool} {m : Modification} {fs : List Frame}
    (h : m.frames ls = .ok fs) :
    m.payloadBytes ls =
      okOr (checkedAdd 0 (Session.payloadTotal fs + m.impliedSpace ls)) (.limit "output") := by
  unfold payloadBytes
  rw [foldlM_checkedAdd _ _ (Nat.zero_le _), payloadParts_sum h]

end Modification

namespace Session

/-! ### The loop over the modifications -/

/-- No frames have no payload. -/
@[simp] theorem payloadTotal_nil : payloadTotal [] = 0 := rfl

/-- The payloads of two lists of frames add up. -/
@[simp] theorem payloadTotal_append (fs gs : List Frame) :
    payloadTotal (fs ++ gs) = payloadTotal fs + payloadTotal gs := by
  simp [payloadTotal]

/-- The check of `complete` before a modification is encoded. -/
def estimateCheck (limits : Limits) (leadingSpace : Bool) (outputBytes : ℕ) (m : Modification) :
    Result Unit := do
  let size ← m.payloadBytes leadingSpace
  let nextBytes ← okOr (checkedAdd outputBytes size) (.limit "output")
  rejectIf (limits.messageBytes < nextBytes) (.limit "output")

variable {limits : Limits} {actions : UInt32} {ls : Bool}

/-- One modification: its capability, its estimate, its frames and their budget. -/
theorem modificationStep_eq (acc : List Frame × ℕ) (m : Modification) :
    modificationStep limits actions ls acc m =
      if actions &&& m.capability = 0 then .error .notNegotiated
      else estimateCheck limits ls acc.2 m >>= fun _ =>
        m.frames ls >>= fun fs => budgetFrames limits fs acc := by
  unfold modificationStep estimateCheck
  rw [bind_assoc]
  congr 2
  apply funext
  intro size
  rw [bind_assoc]
  congr 1
  apply funext
  intro next
  unfold rejectIf
  split
  · rfl
  · rfl

/-- The check of a modification that encodes. -/
theorem estimateCheck_eq {m : Modification} {fs : List Frame} (out : ℕ)
    (hlimit : limits.messageBytes ≤ usizeMax) (h : m.frames ls = .ok fs) :
    estimateCheck limits ls out m =
      rejectIf (limits.messageBytes < out + (payloadTotal fs + m.impliedSpace ls))
        (.limit "output") := by
  unfold estimateCheck
  rw [Modification.payloadBytes_of_frames h]
  generalize payloadTotal fs + m.impliedSpace ls = size
  by_cases hfits : out + size ≤ usizeMax
  · have hsize : checkedAdd 0 size = some size := by
      rw [checkedAdd, if_pos (by omega), Nat.zero_add]
    have hnext : checkedAdd out size = some (out + size) := if_pos hfits
    rw [hsize, okOr_some]
    show (okOr (checkedAdd out size) _ >>= _) = _
    rw [hnext]
    rfl
  · -- A sum beyond the machine word is beyond the limit too.
    have hover : limits.messageBytes < out + size := by omega
    have hnext : checkedAdd out size = none := if_neg hfits
    rw [rejectIf, if_pos hover]
    cases hsize : checkedAdd 0 size with
    | none => rfl
    | some n =>
      have hn := checkedAdd_eq_some hsize
      rw [Nat.zero_add] at hn
      simp only [okOr_some, hn]
      show (okOr (checkedAdd out size) _ >>= _) = _
      rw [hnext]
      rfl

/-- Frames within the message budget pass, unless one of them is too long by itself. -/
theorem budgetFrames_eq (fs : List Frame) (acc : List Frame × ℕ)
    (hlimit : limits.messageBytes ≤ usizeMax)
    (htotal : acc.2 + payloadTotal fs ≤ limits.messageBytes) :
    budgetFrames limits fs acc =
      if ∀ f ∈ fs, f.payload.length + 1 ≤ limits.frameBytes then
        .ok (acc.1 ++ fs, acc.2 + payloadTotal fs)
      else .error (.limit "output frame") := by
  induction fs generalizing acc with
  | nil => simp [budgetFrames]
  | cons f fs ih =>
    have hsplit : payloadTotal (f :: fs) = f.payload.length + payloadTotal fs := by
      simp [payloadTotal]
    rw [hsplit] at htotal ⊢
    unfold budgetFrames
    by_cases hframe : limits.frameBytes < f.payload.length + 1
    · rw [if_pos hframe, if_neg fun hall => ?_]
      have := hall f List.mem_cons_self
      omega
    · have hadd : checkedAdd acc.2 f.payload.length = some (acc.2 + f.payload.length) :=
        if_pos (by omega)
      rw [if_neg hframe, hadd, okOr_some]
      show (if limits.messageBytes < acc.2 + f.payload.length then _ else _) = _
      rw [if_neg (by omega), ih _ (by show _ + _ + _ ≤ _; omega)]
      have hhead : f.payload.length + 1 ≤ limits.frameBytes := by omega
      simp only [List.forall_mem_cons, hhead, true_and, List.append_assoc, List.singleton_append,
        Nat.add_assoc]

/-- The modifications encode to the parts. -/
abbrev Encode (leadingSpace : Bool) (ms : List Modification) (parts : List (List Frame)) : Prop :=
  List.Forall₂ (fun m fs => Modification.frames leadingSpace m = .ok fs) ms parts

/-- One of the checks of the loop fails, with `out` bytes written before it. -/
def overEstimated (limit : ℕ) (ls : Bool) : ℕ → List Modification → List (List Frame) → Prop
  | out, m :: ms, fs :: parts =>
    limit < out + (payloadTotal fs + m.impliedSpace ls) ∨
      overEstimated limit ls (out + payloadTotal fs) ms parts
  | _, _, _ => False

/-- A budget error of the loop is one of its checks. -/
theorem overEstimated_of_foldlM {ms : List Modification} {parts : List (List Frame)}
    (hlimit : limits.messageBytes ≤ usizeMax) (hparts : Encode ls ms parts)
    (acc : List Frame × ℕ)
    (h : ms.foldlM (modificationStep limits actions ls) acc = .error (.limit "output")) :
    overEstimated limits.messageBytes ls acc.2 ms parts := by
  induction hparts generalizing acc with
  | nil => cases h
  | @cons m fs ms parts hm _ ih =>
    by_cases hover : limits.messageBytes < acc.2 + (payloadTotal fs + m.impliedSpace ls)
    · exact .inl hover
    refine .inr ?_
    rw [List.foldlM_cons, modificationStep_eq, estimateCheck_eq _ hlimit hm, rejectIf,
      if_neg hover] at h
    split at h
    · simp [bind, Except.bind] at h
    · -- Past the check only the length of a frame can be refused.
      change (m.frames ls >>= fun fs => budgetFrames limits fs acc) >>= _ = _ at h
      rw [hm] at h
      change budgetFrames limits fs acc >>= _ = _ at h
      rw [budgetFrames_eq fs acc hlimit (by omega)] at h
      split at h
      · exact ih _ h
      · simp [bind, Except.bind] at h

/-- Where nothing else is refused, the loop ends with all frames or fails its checks. -/
theorem foldlM_estimates {ms : List Modification} {parts : List (List Frame)}
    (hlimit : limits.messageBytes ≤ usizeMax) (hparts : Encode ls ms parts)
    (hgranted : ∀ m ∈ ms, actions &&& m.capability ≠ 0)
    (hfit : ∀ fs ∈ parts, ∀ f ∈ fs, f.payload.length + 1 ≤ limits.frameBytes)
    (acc : List Frame × ℕ) (hover : overEstimated limits.messageBytes ls acc.2 ms parts) :
    ms.foldlM (modificationStep limits actions ls) acc = .error (.limit "output") := by
  induction hparts generalizing acc with
  | nil => exact hover.elim
  | @cons m fs ms parts hm _ ih =>
    have hcapability := hgranted m List.mem_cons_self
    rw [List.foldlM_cons, modificationStep_eq, if_neg hcapability,
      estimateCheck_eq _ hlimit hm, rejectIf]
    by_cases hcheck : limits.messageBytes < acc.2 + (payloadTotal fs + m.impliedSpace ls)
    · rw [if_pos hcheck]
      rfl
    · rw [if_neg hcheck, hm]
      change budgetFrames limits fs acc >>= _ = _
      rw [budgetFrames_eq fs acc hlimit (by omega), if_pos (hfit fs List.mem_cons_self)]
      apply ih
      · exact fun m' hm' => hgranted m' (List.mem_cons_of_mem m hm')
      · exact fun fs' hfs' => hfit fs' (List.mem_cons_of_mem fs hfs')
      · exact hover.resolve_left hcheck

/-! ### Estimates and budget -/

/-- The last modification that sends a payload is a raw header. -/
def endsRaw (ms : List Modification) : Bool :=
  (ms.reverse.find? fun m => m ≠ .replaceBody []).any Modification.isRaw

/-- The last modification that counts is a raw header. -/
theorem endsRaw_cons (m : Modification) (ms : List Modification) :
    endsRaw (m :: ms) = true ↔
      endsRaw ms = true ∨ (∀ a ∈ ms, a = .replaceBody []) ∧ m.isRaw = true := by
  unfold endsRaw
  rw [List.reverse_cons, List.find?_append]
  cases hlast : ms.reverse.find? fun m => m ≠ .replaceBody [] with
  | none =>
    have hempty : ∀ a ∈ ms, a = .replaceBody [] := by
      simpa using List.find?_eq_none.mp hlast
    by_cases hm : m = .replaceBody []
    · simp [hm, Modification.isRaw]
    · simp [hm]
      exact fun _ => hempty
  | some a =>
    have hmem := List.mem_of_find?_eq_some hlast
    have hsends := List.find?_some hlast
    have hnot : ¬ ∀ a ∈ ms, a = .replaceBody [] := by
      intro hall
      simp [hall a (List.mem_reverse.mp hmem)] at hsends
    simp [hnot]

/-- Nothing is sent by a list of empty bodies only. -/
theorem payloadTotal_flatten_eq_zero {ms : List Modification} {parts : List (List Frame)}
    (hparts : Encode ls ms parts) :
    payloadTotal parts.flatten = 0 ↔ ∀ a ∈ ms, a = .replaceBody [] := by
  induction hparts with
  | nil => simp
  | @cons m fs ms parts hm _ ih =>
    rw [List.flatten_cons, payloadTotal_append, Nat.add_eq_zero_iff, List.forall_mem_cons, ih]
    have hhead : payloadTotal fs = 0 ↔ m = .replaceBody [] := by
      constructor
      · exact Modification.eq_emptyBody hm
      · intro hempty
        rw [hempty] at hm
        exact Modification.replaceBody_total hm
    rw [hhead]

/-- **The estimates exceed the budget** where the frames do, or where the frames use it up and a
    raw header without its implied space is the last to send something. -/
theorem overEstimated_iff {ms : List Modification} {parts : List (List Frame)} {limit out : ℕ}
    (hparts : Encode ls ms parts) (hout : out ≤ limit) :
    overEstimated limit ls out ms parts ↔
      limit < out + payloadTotal parts.flatten ∨
        out + payloadTotal parts.flatten = limit ∧ ls = false ∧ endsRaw ms = true := by
  induction hparts generalizing out with
  | nil => simp [overEstimated, endsRaw]; omega
  | @cons m fs ms parts hm hparts ih =>
    rw [overEstimated, List.flatten_cons, payloadTotal_append, endsRaw_cons, ← Nat.add_assoc,
      ← Nat.add_assoc]
    by_cases hover : limit < out + payloadTotal fs
    · exact ⟨fun _ => .inl (by omega), fun _ => .inl (by omega)⟩
    rw [ih (by omega)]
    have hspace : limit < out + payloadTotal fs + m.impliedSpace ls ↔
        out + payloadTotal fs = limit ∧ ls = false ∧ m.isRaw = true := by
      unfold Modification.impliedSpace
      cases ls <;> cases m.isRaw <;> simp <;> omega
    rw [hspace, ← payloadTotal_flatten_eq_zero hparts]
    constructor
    · rintro (⟨hedge, hls, hraw⟩ | hlater | ⟨hedge, hls, hends⟩)
      · by_cases hzero : payloadTotal parts.flatten = 0
        · exact .inr ⟨by omega, hls, .inr ⟨hzero, hraw⟩⟩
        · exact .inl (by omega)
      · exact .inl hlater
      · exact .inr ⟨hedge, hls, .inl hends⟩
    · rintro (hlater | ⟨hedge, hls, hends | ⟨hzero, hraw⟩⟩)
      · exact .inr (.inl hlater)
      · exact .inr (.inr ⟨hedge, hls, hends⟩)
      · exact .inl ⟨by omega, hls, hraw⟩

/-! ### The decision -/

/-- A verdict is refused for what it says, never for the output budget. -/
theorem finalFrame_error {v : Verdict} {e : Error} (h : finalFrame v = .error e) :
    e ≠ .limit "output" := by
  have hfails : Result.FailsWith (fun e => e ≠ .limit "output") (finalFrame v) := by
    cases v with
    | reply code enhanced message =>
      refine .bind (.rejectIf _ (by simp)) fun _ => .bind ?_ fun _ => .bind ?_ fun _ =>
        .bind (.foldlM (fun _ _ => ?_) _ _) fun _ => .pure _
      · exact .ite (fun _ => .error (by simp)) fun _ => .ok _
      · cases enhanced with
        | none => exact .ok _
        | some enhanced => exact .ite (fun _ => .ok _) fun _ => .error (by simp)
      · exact .ite (fun _ => .error (by simp)) fun _ => .ok _
    | _ => exact .ok _
  exact hfails e h

/-- A decision refused for the output budget is refused by the loop. -/
theorem modificationFrames_of_complete {d : Decision} {s : Session}
    (h : (complete d s).1 = .error (.limit "output")) :
    ∃ o, s.options = some o ∧
      modificationFrames s.limits o.actions s.leadingSpace d.modifications =
        .error (.limit "output") := by
  generalize he : Error.limit "output" = e at h ⊢
  cases complete_declines (complete_of_error h) with
  | modifications ho h => exact ⟨_, ho, h⟩
  | verdict h => exact absurd he.symm (finalFrame_error h)
  | _ => simp at he

/-- **Where the estimate is the encoding.**  A modification that encodes has the payload that
    was estimated unless it is a raw header without the leading-space mode; and a decision is
    refused for the budget exactly when its frames exceed it unless such a raw header is the last
    to send a payload and the frames use the budget up. -/
theorem estimates_exact_iff {s : Session} {d : Decision} {parts : List (List Frame)}
    (hparts : Encode s.leadingSpace d.modifications parts)
    (hlimit : s.limits.messageBytes ≤ usizeMax) :
    -- one modification, in either mode
    (∀ ls m fs, Modification.frames ls m = .ok fs → payloadTotal fs ≤ usizeMax →
      (m.payloadBytes ls = .ok (payloadTotal fs) ↔ ¬ (m.isRaw = true ∧ ls = false))) ∧
    -- a decision that nothing else refuses
    (∀ o, s.pending = some .endMessage → s.options = some o →
      d.modifications.length ≤ s.limits.modifications →
      (∀ m ∈ d.modifications, o.actions &&& m.capability ≠ 0) →
      (∀ fs ∈ parts, ∀ f ∈ fs, f.payload.length + 1 ≤ s.limits.frameBytes) →
      (((complete d s).1 = .error (.limit "output") ↔
          s.limits.messageBytes < payloadTotal parts.flatten) ↔
        ¬ (payloadTotal parts.flatten = s.limits.messageBytes ∧ s.leadingSpace = false ∧
          endsRaw d.modifications = true))) ∧
    -- any decision
    (s.limits.messageBytes < payloadTotal parts.flatten → ∃ e, (complete d s).1 = .error e) ∧
    ((complete d s).1 = .error (.limit "output") →
      s.limits.messageBytes < payloadTotal parts.flatten ∨
        payloadTotal parts.flatten = s.limits.messageBytes ∧ s.leadingSpace = false ∧
          endsRaw d.modifications = true) := by
  have hstart : (0 : ℕ) ≤ s.limits.messageBytes := Nat.zero_le _
  have hestimates := overEstimated_iff hparts hstart
  rw [Nat.zero_add] at hestimates
  have hrefused : (complete d s).1 = .error (.limit "output") →
      overEstimated s.limits.messageBytes s.leadingSpace 0 d.modifications parts := by
    intro h
    obtain ⟨o, -, hloop⟩ := modificationFrames_of_complete h
    rcases Result.bind_error_iff.mp hloop with hfold | ⟨_, _, hpure⟩
    · exact overEstimated_of_foldlM hlimit hparts ([], 0) hfold
    · cases hpure
  refine ⟨?_, ?_, ?_, fun h => hestimates.mp (hrefused h)⟩
  · intro ls m fs hm hfits
    rw [Modification.payloadBytes_of_frames hm, okOr_eq_ok]
    cases hraw : m.isRaw <;> cases ls <;>
      simp [Modification.impliedSpace, hraw, checkedAdd] <;> omega
  · intro o hpending ho hcount hgranted hfit
    have hover : overEstimated s.limits.messageBytes s.leadingSpace 0 d.modifications parts →
        (complete d s).1 = .error (.limit "output") := by
      intro hover
      have hloop := foldlM_estimates hlimit hparts hgranted hfit ([], 0) hover
      have hmany : ¬ s.limits.modifications < d.modifications.length := not_lt.mpr hcount
      simp [complete, run_bind, hpending, ho, hmany, modificationFrames, hloop]
    have hexact : (complete d s).1 = .error (.limit "output") ↔ _ := ⟨hrefused, hover⟩
    rw [hexact, hestimates]
    -- At the edge the budget is used up and not exceeded.
    have hedge : payloadTotal parts.flatten = s.limits.messageBytes →
        ¬ s.limits.messageBytes < payloadTotal parts.flatten := by omega
    rw [or_iff_left_iff_imp]
    constructor
    · exact fun hexceeds hlast => hedge hlast.1 (hexceeds hlast)
    · exact fun hlast hat => absurd hat hlast
  · intro hexceeds
    rcases hr : complete d s with ⟨r, t⟩
    cases r with
    | error e => exact ⟨e, rfl⟩
    | ok frames =>
      obtain ⟨stage, hcompletes⟩ := complete_ok hr
      obtain ⟨o, mods, final, -, hmods, -⟩ := hcompletes.frames
      obtain ⟨parts', hparts', hflat⟩ := modificationFrames_ok hmods
      have hsame : parts' = parts := by
        refine List.right_unique_forall₂' (fun m fs fs' h h' => ?_) hparts' hparts
        exact Except.ok.inj (h.symm.trans h')
      have hbound := (modificationFrames_bounds hmods).2.2
      rw [hflat, hsame] at hbound
      omega

/-- The end of a message in a session that lets a decision send eight bytes. -/
def eightBytes : Session :=
  Machine.after call (.new { messageBytes := 8 } [] supportedActions)
    ([Sample.offer, Sample.connect, Sample.mail, Sample.rcpt "<b>", Sample.data,
      Sample.endHeaders, Sample.endMessage].map .receive)

/-- A raw header of eight bytes on the wire, its leading space left out. -/
def rawHeader : Modification := .insertRawHeader 0 "X" " v"

/-- A raw header of eight bytes is estimated at nine, and refused for it. -/
theorem rawHeader_overestimated :
    ∃ fs, rawHeader.frames false = .ok fs ∧ payloadTotal fs = 8 ∧
      rawHeader.payloadBytes false = .ok 9 ∧
      eightBytes.leadingSpace = false ∧ eightBytes.limits.messageBytes = 8 ∧
      (complete { modifications := [rawHeader] } eightBytes).1 = .error (.limit "output") := by
  refine ⟨[⟨byte 'i', [0, 0, 0, 0, byte 'X', 0, byte 'v', 0]⟩], ?_⟩
  decide +kernel

/-- The limit of the sample is between the two. -/
theorem estimates_exact_iff_at_eightBytes :
    (complete { modifications := [.addHeader "X" "v"] } eightBytes).1 = .error (.limit "output") ↔
      8 < 4 := by
  have hparts : Encode eightBytes.leadingSpace [.addHeader "X" "v"]
      [[⟨byte 'h', [byte 'X', 0, byte 'v', 0]⟩]] := .cons (by decide +kernel) .nil
  have h := (estimates_exact_iff (d := { modifications := [.addHeader "X" "v"] }) hparts
    (by decide +kernel)).2.1 ⟨6, supportedActions, 0⟩ (by decide +kernel) (by decide +kernel)
    (by decide +kernel) (by decide +kernel) (by decide +kernel)
  exact h.mpr (by decide +kernel)

end Session

end MtaHooks
