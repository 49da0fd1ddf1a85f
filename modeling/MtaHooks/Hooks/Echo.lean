import MtaHooks.Hooks.EncodedLimit
import MtaHooks.Hooks.HeaderBlock
import MtaHooks.Hooks.RawMatching
import MtaHooks.Session.Budgets

namespace MtaHooks

/-!
# Echoing the message

A scanner that returns the raw message as it got it changes nothing.

* `isMessage_rawMessage` — the raw message has the headers of the session for fields, each value
  behind the space that the milter protocol leaves out;
* `fieldEdits_echo` — the matching keeps the field at position `p` for the field at position `p`;
* `echo_unchanged` — the raw message reads back as headers and body, and replacing it by itself
  takes no modification.
-/

namespace Hooks

open GroupLength Session

/-! ### Writing and reading -/

/-- A value as it stands in the raw message. -/
def spaced (leadingSpace : Bool) (value : Bytes) : Bytes :=
  (if !leadingSpace && !startsWithLineEnd value then [byte ' '] else []) ++ value

/-- The form of a field in the raw message, in one piece. -/
theorem rawField_eq (leadingSpace : Bool) (field : Bytes × Bytes) :
    rawField leadingSpace field =
      field.1 ++ byte ':' :: (spaced leadingSpace field.2 ++ [byte '\r', byte '\n']) := by
  simp [rawField, spaced]

/-- The space in front of a value leaves it folded. -/
theorem folded_spaced {value : Bytes} (h : Folded value) (leadingSpace : Bool) :
    Folded (spaced leadingSpace value) := by
  unfold spaced
  split
  · exact forall_split_cons.mpr ⟨fun h => absurd h (by decide), h⟩
  · exact h

/-- The space that is put in is the space that is taken out. -/
theorem visibleValue_spaced (leadingSpace : Bool) (value : Bytes) :
    visibleValue leadingSpace (spaced leadingSpace value) = some value := by
  unfold visibleValue spaced
  by_cases hspace : (!leadingSpace && !startsWithLineEnd value) = true
  · have hkept : (leadingSpace || startsWithLineEnd (byte ' ' :: value)) = false := by
      rw [Bool.and_eq_true, Bool.not_eq_true', Bool.not_eq_true'] at hspace
      rw [hspace.1]
      rfl
    rw [if_pos hspace]
    show (if (leadingSpace || startsWithLineEnd (byte ' ' :: value)) = true then _ else
      stripPrefix " " (byte ' ' :: value)) = _
    rw [hkept, if_neg (by decide)]
    exact stripPrefix_eq_some.mpr rfl
  · have hkept : (leadingSpace || startsWithLineEnd value) = true := by
      rw [Bool.and_eq_true, Bool.not_eq_true', Bool.not_eq_true', not_and_or, Bool.not_eq_false,
        Bool.not_eq_false] at hspace
      rw [Bool.or_eq_true]
      exact hspace
    rw [if_neg hspace, List.nil_append, hkept, if_pos rfl]

/-- A header as a field of the raw message. -/
def rawForm (leadingSpace : Bool) (field : Bytes × Bytes) : Bytes × Bytes :=
  (field.1, spaced leadingSpace field.2)

/-- The scanner is shown the field that was written. -/
theorem visibleField_rawForm (leadingSpace : Bool) (field : Bytes × Bytes) :
    visibleField leadingSpace (rawForm leadingSpace field) = some field := by
  unfold visibleField rawForm
  rw [visibleValue_spaced]
  rfl

/-- A header whose field ends where it should. -/
def WellFormed (field : Bytes × Bytes) : Prop := IsName field.1 ∧ Folded field.2

/-- **The raw message has the headers for fields.** -/
theorem isMessage_rawMessage {s : Session} (hfields : ∀ f ∈ s.message.headers, WellFormed f) :
    IsMessage s.rawMessage (s.message.headers.map (rawForm s.leadingSpace)) s.message.body := by
  refine ⟨s.message.headers.map (rawField s.leadingSpace), [byte '\r', byte '\n'], ?_,
    .crlf (by simp), ?_⟩
  · rw [List.forall₂_map_left_iff, List.forall₂_map_right_iff, List.forall₂_same]
    intro f hf
    obtain ⟨hname, hfold⟩ := hfields f hf
    rw [rawField_eq]
    exact IsField.folded hname (folded_spaced hfold _) .crlf
  · rw [← List.flatMap_def]
    rfl

/-! ### Matching -/

/-- At its own position, a header is the next one equal to itself. -/
theorem matched_self {ls : Bool} {original : List (Bytes × Bytes)} {p : ℕ} {field : Bytes × Bytes}
    (h : original[p]? = some field) : matched ls original p (rawForm ls field) = some p := by
  have hlt : p < original.length := (List.getElem?_eq_some_iff.mp h).1
  -- The positions before `p` are behind the cursor, and `p` itself is a candidate.
  have hrange : List.range original.length =
      List.range p ++ p :: List.range' (p + 1) (original.length - p - 1) := by
    have hlength : original.length = p + (original.length - p - 1 + 1) := by omega
    rw [List.range_eq_range', List.range_eq_range', ← List.range'_succ]
    conv_lhs => rw [hlength]
    rw [← List.range'_append_1, Nat.zero_add]
  have hself : original[p]? = some ((rawForm ls field).1, field.2) := h
  unfold matched
  rw [show (rawForm ls field).2 = spaced ls field.2 from rfl, visibleValue_spaced, Option.bind_some]
  unfold candidates
  rw [hrange, List.filter_append, List.filter_cons_of_pos (by simpa using hself),
    List.dropWhile_append_of_pos, List.dropWhile_cons_of_neg (by simp)]
  · rfl
  · intro i hi
    simpa using List.mem_range.mp (List.mem_filter.mp hi).1

/-- The loop keeps every original at its own position. -/
theorem foldlM_echo {ls : Bool} {original before after : List (Bytes × Bytes)}
    (h : original = before ++ after) :
    ((after.map (rawForm ls)).zipIdx before.length).foldlM (matchField ls original)
        { retained := List.replicate before.length true ++ List.replicate after.length false
          cursor := before.length } =
      .ok { retained := List.replicate original.length true, cursor := original.length } := by
  -- On the fields left: those before are retained and the cursor stands at the first left.
  induction after generalizing before with
  | nil =>
    rw [List.append_nil] at h
    subst h
    simp
    rfl
  | cons field after ih =>
    have hat : original[before.length]? = some field := by
      rw [h]
      simp
    have hstep : matchField ls original
        { retained := List.replicate before.length true ++ List.replicate (after.length + 1) false
          cursor := before.length } (rawForm ls field, before.length) =
        .ok { retained := List.replicate (before ++ [field]).length true ++
                List.replicate after.length false
              cursor := (before ++ [field]).length } := by
      have hset : (List.replicate before.length true ++ List.replicate (after.length + 1) false).set
          before.length true = List.replicate (before.length + 1) true ++
            List.replicate after.length false := by
        rw [List.set_append_right _ _ (by simp), List.length_replicate, Nat.sub_self,
          List.replicate_succ, List.set_cons_zero, List.replicate_succ', List.append_assoc]
        rfl
      unfold matchField
      simp only [matched_self hat]
      rw [hset, List.length_append, List.length_singleton]
    rw [List.map_cons, List.zipIdx_cons, List.foldlM_cons, List.length_cons, hstep]
    have hlength : before.length + 1 = (before ++ [field]).length := by simp
    rw [hlength]
    exact ih (by rw [h, List.append_assoc]; rfl)

/-- **Echoed fields need no edit.** -/
theorem fieldEdits_echo (ls : Bool) (original : List (Bytes × Bytes)) :
    fieldEdits ls original (original.map (rawForm ls)) = .ok [] := by
  have hloop := @foldlM_echo ls original [] original (List.nil_append original).symm
  have hdropped : dropped (List.replicate original.length true) = [] := by
    unfold dropped
    rw [List.filter_eq_nil_iff]
    intro i _
    simp [List.getElem?_replicate]
  unfold fieldEdits
  rw [show (original.map (rawForm ls)).zipIdx = (original.map (rawForm ls)).zipIdx 0 from rfl]
  refine Result.bind_ok_iff.mpr ⟨_, hloop, ?_⟩
  rw [hdropped]
  rfl

/-! ### The replacement -/

/-- **Echoing the message changes nothing.**  At the EOM callback of any session whose header
    fields are well formed, the raw message is read as the headers, one by one, and the body; and
    replacing the message by it takes no modification. -/
theorem echo_unchanged {b64 : Base64}
    (hencode : ∀ bytes, (b64.encode bytes).length = (bytes.length + 2) / 3 * 4) {s : Session}
    (hs : s.Reachable) (hpending : s.pending = some .endMessage)
    (hlimit : s.limits.messageBytes < 2 ^ 62)
    (hfields : ∀ f ∈ s.message.headers, WellFormed f) :
    (∃ places bodyStart,
      readFields s.limits s.rawMessage (s.rawMessage.length + 1) 0 [] = .ok (places, bodyStart) ∧
      places.map (fun place => visibleField s.leadingSpace (place.field s.rawMessage)) =
        s.message.headers.map some ∧
      s.rawMessage.drop bodyStart = s.message.body) ∧
    rawReplacement b64 (.string (b64.encode s.rawMessage)) s = .ok [] := by
  have hmessage := isMessage_rawMessage hfields
  have hroom : (s.message.headers.map (rawForm s.leadingSpace)).length ≤ s.limits.headers := by
    rw [List.length_map]
    exact hs.headers_le
  obtain ⟨places, bodyStart, hread, hplaces, hbody⟩ := readFields_complete hmessage hroom
  refine ⟨⟨places, bodyStart, hread, ?_, hbody⟩, ?_⟩
  · calc places.map (fun place => visibleField s.leadingSpace (place.field s.rawMessage))
        = (places.map (RawField.field s.rawMessage)).map (visibleField s.leadingSpace) := by
          rw [List.map_map]; rfl
      _ = s.message.headers.map some := by
          rw [hplaces, List.map_map]
          exact List.map_congr_left fun f _ => visibleField_rawForm _ f
  -- What was accepted fits the limit, so neither the text nor the message is refused.
  · have hsize : s.rawMessage.length ≤ s.limits.messageBytes :=
      (length_rawMessage_le (hs.valid.awaits _ hpending)).trans hs.stored_le
    have hlength : ∀ raw, (b64.encode raw).length = encoded 3 4 raw.length := by
      intro raw
      rw [encoded_eq]
      exact hencode raw
    have hdecode : decodeRaw b64 s.limits (.string (b64.encode s.rawMessage)) =
        .ok s.rawMessage :=
      decodeRaw_encode_eq_ok hlength (by omega) hsize
    refine Result.bind_ok_iff.mpr ⟨_, hdecode, ?_⟩
    refine Result.bind_ok_iff.mpr ⟨_, hread, ?_⟩
    refine Result.bind_ok_iff.mpr ⟨[], ?_, ?_⟩
    · rw [hplaces]
      exact fieldEdits_echo _ _
    · dsimp only
      rw [if_neg (not_not.mpr hbody)]
      exact Result.bind_ok_iff.mpr ⟨(), rejectIf_eq_ok.mpr (Nat.not_lt_of_le (Nat.zero_le _)), rfl⟩

/-- The EOM callback of a message with a folded and an empty header. -/
def echoedMessage : Session :=
  Sample.received [] [Sample.offer, Sample.connect, Sample.mail, Sample.rcpt "<b>", Sample.data,
    Sample.header "A" "\r\n 1\n\t2", Sample.header "A" "", Sample.endHeaders, Sample.endMessage]

/-- A message with a folded field, sent back as it is. -/
theorem echo_unchanged_at_fold :
    rawReplacement Sample.base64 (.string (Sample.base64.encode echoedMessage.rawMessage))
      echoedMessage = .ok [] := by
  have hfields : ∀ f ∈ echoedMessage.message.headers, WellFormed f := by
    have hheaders : echoedMessage.message.headers =
        [(ascii "A", ascii "\r\n 1\n\t2"), (ascii "A", ascii "")] := by decide +kernel
    rw [hheaders]
    intro f hf
    rcases List.mem_cons.mp hf with rfl | hf
    · exact ⟨⟨by decide, by decide⟩, (headerValue_eq_ok.mp (by decide +kernel)).lf⟩
    · rw [List.mem_singleton.mp hf]
      exact ⟨⟨by decide, by decide⟩, (headerValue_eq_ok.mp (by decide +kernel)).lf⟩
  exact (echo_unchanged StandardBase64.length_encode (Sample.received_reachable _ _)
    (by decide +kernel) (by decide +kernel) hfields).2

end Hooks

end MtaHooks
