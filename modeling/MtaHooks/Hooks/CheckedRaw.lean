import MtaHooks.Lib.Agreement
import MtaHooks.Protocol.Checked
import MtaHooks.Hooks.RawFields
import MtaHooks.Hooks.RawMatching

namespace MtaHooks

open Agreement Hooks

/-!
# The indices of the raw replacement

The reader and the matcher of `raw_replacement` once more, with every index of the source.

* `Checked.readFields_agrees` — the reader misses no bound and has fuel enough: what it keeps
  of a field starts before the line that is read;
* `Checked.occurrences_eq` — the counters of the names stay below their limit;
* `Checked.fieldEdits_agrees` — the matcher marks and deletes originals only;
* `Checked.rawReplacement_agrees` — the whole replacement.
-/

namespace Checked

/-- The same outcome, which is no panic, and a value with the property. -/
abbrev Agrees {α : Type} (P : α → Prop) (x y : Result α) : Prop :=
  Agreement.Agrees (·.isPanic = false) P x y

/-- A lookup indexes nothing. -/
theorem okOr_agrees {α : Type} (o : Option α) {e : Error} (he : e.isPanic = false) :
    Agrees (fun a => o = some a) (okOr o e) (okOr o e) :=
  (Agreement.Agrees.refl (Result.FailsWith.okOr o he)).mono fun _ h => okOr_eq_ok.mp h

/-- A check indexes nothing. -/
theorem rejectIf_agrees (c : Prop) [Decidable c] {e : Error} (he : e.isPanic = false) :
    Agrees (fun _ => ¬ c) (rejectIf c e) (rejectIf c e) :=
  (Agreement.Agrees.refl (Result.FailsWith.rejectIf c he)).mono fun _ h => rejectIf_eq_ok.mp h

/-- A text fails without a panic. -/
theorem text_safe (b : Bytes) : (text b).Safe := .ite (fun _ => .ok _) fun _ => .error rfl

/-- A text indexes nothing. -/
theorem text_agrees (b : Bytes) : Agrees (fun _ => True) (text b) (text b) :=
  (Agreement.Agrees.refl (text_safe b)).mono fun _ _ => trivial

/-! ### The reader -/

/-- The end of the content of a line that ends at `stop`. -/
def contentEnd (raw : Bytes) (offset stop : ℕ) : Result ℕ :=
  if offset < stop then do
    let c ← index raw (stop - 1)
    return if c = byte '\r' then stop - 1 else stop
  else .ok stop

/-- The line at `offset`: the end of its content and the position of its LF. -/
def lineAt (raw : Bytes) (offset : ℕ) : Result (ℕ × ℕ) := do
  let rest ← rangeFrom raw offset
  let n ← okOr (rest.findIdx? (· = byte '\n')) (.invalid "raw message headers")
  let content ← contentEnd raw offset (offset + n)
  return (content, offset + n)

/-- Move the end of the last value, which is found again by its start. -/
def extendLast (raw : Bytes) (fields : List RawField) (stop : ℕ) : Result (List RawField) :=
  match fields.getLast? with
  | some last => do
    let _ ← range raw last.start stop
    return fields.dropLast ++ [{ last with stop }]
  | none => .error (.invalid "orphan continuation")

/-- The field that starts at `offset` with the given line. -/
def newField (limits : Limits) (raw : Bytes) (offset stop : ℕ) (line : Bytes)
    (fields : List RawField) : Result (List RawField) := do
  let colon ← okOr (line.findIdx? (· = byte ':')) (.invalid "raw header")
  let name ← range line 0 colon
  rejectIf (name = [] ∨ ¬ name.all isHeaderNameByte) (.invalid "raw header name")
  rejectIf (limits.headers ≤ fields.length) (.limit "replacement headers")
  let _ ← range raw (offset + colon + 1) stop
  return fields ++ [⟨name, offset + colon + 1, stop⟩]

/-- The fields after a line that is not empty. -/
def addLine (limits : Limits) (raw : Bytes) (offset stop : ℕ) (line : Bytes)
    (fields : List RawField) : Result (List RawField) :=
  if isContinuation line then extendLast raw fields stop
  else newField limits raw offset stop line fields

/-- Read fields from `offset` to the empty line: the fields and the start of the body. -/
def readFields (limits : Limits) (raw : Bytes) :
    ℕ → ℕ → List RawField → Result (List RawField × ℕ)
  | 0, _, _ => .error (.panic "fuel")
  | fuel + 1, offset, fields => do
    let (content, stop) ← lineAt raw offset
    let line ← range raw offset content
    if line = [] then return (fields, stop + 1)
    else do
      let fields ← addLine limits raw offset content line fields
      readFields limits raw fuel (stop + 1) fields

/-- A line lies within the message. -/
theorem lineAt_agrees {raw : Bytes} {offset : ℕ} (h : offset ≤ raw.length) :
    Agrees (fun r => offset ≤ r.1 ∧ r.1 ≤ r.2 ∧ r.2 < raw.length) (lineAt raw offset)
      (Hooks.lineAt raw offset) := by
  have hsafe : (Hooks.lineAt raw offset).Safe := .bind (.okOr _ rfl) fun _ => .pure _
  have hsame : lineAt raw offset = Hooks.lineAt raw offset := by
    unfold lineAt Hooks.lineAt
    rw [rangeFrom_of_le h]
    show (okOr ((raw.drop offset).findIdx? (· = byte '\n')) _ >>= _) =
      (okOr ((raw.drop offset).findIdx? (· = byte '\n')) _ >>= _)
    cases hn : (raw.drop offset).findIdx? (· = byte '\n') with
    | none => rfl
    | some n =>
      obtain ⟨hlt, -⟩ := List.findIdx?_eq_some_iff_getElem.mp hn
      rw [List.length_drop] at hlt
      show (contentEnd raw offset (offset + n) >>= fun content => pure (content, offset + n)) =
        .ok (Hooks.contentEnd raw offset (offset + n), offset + n)
      unfold contentEnd Hooks.contentEnd
      by_cases hpos : offset < offset + n
      · have hin : offset + n - 1 < raw.length := by omega
        rw [if_pos hpos, index_of_lt hin, List.getElem?_eq_getElem hin]
        by_cases hcr : raw[offset + n - 1] = byte '\r'
        · rw [if_pos ⟨hpos, congrArg some hcr⟩, hcr]
          rfl
        · rw [if_neg (fun h => hcr (Option.some.inj h.2))]
          show Except.ok (if raw[offset + n - 1] = byte '\r' then _ else _, _) = _
          rw [if_neg hcr]
      · rw [if_neg hpos, if_neg (fun h => hpos h.1)]
        rfl
  refine ⟨hsame, hsafe, fun r hr => ?_⟩
  obtain ⟨content, stop⟩ := r
  obtain ⟨hcontent, hstop, hlt, -⟩ := Hooks.lineAt_ok hr
  exact ⟨hcontent, hstop, hlt⟩

/-- The fields start before the offset. -/
def Before (offset : ℕ) (fields : List RawField) : Prop := ∀ f ∈ fields, f.start ≤ offset

/-- What is before an offset is before a later one. -/
theorem Before.mono {offset offset' : ℕ} {fields : List RawField} (h : Before offset fields)
    (hle : offset ≤ offset') : Before offset' fields :=
  fun f hf => (h f hf).trans hle

/-- The last field is extended within the message. -/
theorem extendLast_agrees {raw : Bytes} {fields : List RawField} {stop : ℕ}
    (h : Before stop fields) (hstop : stop ≤ raw.length) :
    Agrees (Before stop) (extendLast raw fields stop) (Hooks.extendLast fields stop) := by
  unfold extendLast Hooks.extendLast
  cases hlast : fields.getLast? with
  | none => exact .fail rfl
  | some last =>
    have hle : last.start ≤ stop := h last (List.mem_of_getLast? hlast)
    dsimp only
    rw [range_of_le hle hstop]
    refine .ok fun f hf => ?_
    rcases List.mem_append.mp hf with hf | hf
    · exact h f (List.dropLast_subset _ hf)
    · rw [List.mem_singleton.mp hf]
      exact hle

/-- The name ends before its colon, and the value starts after it. -/
theorem newField_agrees {limits : Limits} {raw : Bytes} {fields : List RawField}
    {offset stop : ℕ} (h : Before stop fields) (hle : offset ≤ stop) (hstop : stop ≤ raw.length) :
    Agrees (Before stop) (newField limits raw offset stop (slice raw offset stop) fields)
      (Hooks.newField limits raw offset stop fields) := by
  have hlength : (slice raw offset stop).length = stop - offset := length_slice hstop
  refine (okOr_agrees _ rfl).bind fun colon hcolon => ?_
  -- The colon is a byte of the line, so the slices around it lie within.
  have hlt : colon < stop - offset := by
    obtain ⟨hlt, -⟩ := List.findIdx?_eq_some_iff_getElem.mp hcolon
    omega
  rw [range_of_le (Nat.zero_le _) (by omega), List.drop_zero]
  refine (rejectIf_agrees _ rfl).bind fun _ _ => ?_
  refine (rejectIf_agrees _ rfl).bind fun _ _ => ?_
  rw [range_of_le (by omega) hstop]
  refine .ok fun f hf => ?_
  rcases List.mem_append.mp hf with hf | hf
  · exact h f hf
  · rw [List.mem_singleton.mp hf]
    show offset + colon + 1 ≤ stop
    omega

/-- **The reader misses no bound and has fuel enough.** -/
theorem readFields_agrees {limits : Limits} {raw : Bytes} {fuel offset : ℕ}
    {fields : List RawField} (h : Before offset fields) (hoffset : offset ≤ raw.length)
    (hfuel : raw.length < offset + fuel) :
    Agrees (fun r => r.2 ≤ raw.length) (readFields limits raw fuel offset fields)
      (Hooks.readFields limits raw fuel offset fields) := by
  induction fuel generalizing offset fields with
  | zero => omega
  | succ fuel ih =>
    unfold readFields Hooks.readFields
    refine (lineAt_agrees hoffset).bind fun r hr => ?_
    obtain ⟨content, stop⟩ := r
    obtain ⟨hcontent, hstop, hlt⟩ : offset ≤ content ∧ content ≤ stop ∧ stop < raw.length := hr
    dsimp only
    rw [range_of_le hcontent (by omega)]
    show Agrees _ (if slice raw offset content = [] then _ else _) _
    refine .ite (fun _ => .pure hlt) fun _ => ?_
    have hline : Agrees (Before content)
        (addLine limits raw offset content (slice raw offset content) fields)
        (Hooks.addLine limits raw offset content fields) :=
      .ite (fun _ => extendLast_agrees (h.mono hcontent) (by omega)) fun _ =>
        newField_agrees (h.mono hcontent) hcontent (by omega)
    -- Each line takes at least its LF.
    exact hline.bind fun fields' hfields => ih (hfields.mono (by omega)) hlt (by omega)

/-! ### The occurrences of the names -/

/-- Count a name, ignoring case, and remember the count. -/
def countName (s : (Bytes → UInt32) × List UInt32) (header : Bytes × Bytes) :
    Result ((Bytes → UInt32) × List UInt32) := do
  let count ← succ (s.1 (toAsciiLowercase header.1))
  return (Function.update s.1 (toAsciiLowercase header.1) count, s.2 ++ [count])

/-- The occurrence of each original field among those of its name. -/
def occurrences (original : List (Bytes × Bytes)) : Result (List UInt32) := do
  let s ← original.foldlM countName (fun _ => 0, [])
  return s.2

/-- The names counted so far, and what was remembered of each field. -/
structure Counted (done : List (Bytes × Bytes)) (s : (Bytes → UInt32) × List UInt32) :
    Prop where
  count : ∀ name, (s.1 name).toNat = done.countP fun h => toAsciiLowercase h.1 == name
  length : s.2.length = done.length
  occurrence : ∀ i header, done[i]? = some header →
    s.2[i]? = some (rawOccurrence done i header.1)

/-- One more field of the same name. -/
theorem countP_concat_name (done : List (Bytes × Bytes)) (header : Bytes × Bytes) :
    (done ++ [header]).countP (fun h => toAsciiLowercase h.1 == toAsciiLowercase header.1) =
      done.countP (fun h => toAsciiLowercase h.1 == toAsciiLowercase header.1) + 1 := by
  rw [List.countP_append]
  simp

/-- A further header is counted, while there are few. -/
theorem Counted.step {done : List (Bytes × Bytes)} {s : (Bytes → UInt32) × List UInt32}
    (hs : Counted done s) (header : Bytes × Bytes) (hfew : done.length + 1 < 2 ^ 32) :
    ∃ s', countName s header = .ok s' ∧ Counted (done ++ [header]) s' := by
  have hcount := hs.count (toAsciiLowercase header.1)
  have hle := List.countP_le_length
    (p := fun h : Bytes × Bytes => toAsciiLowercase h.1 == toAsciiLowercase header.1) (l := done)
  have hsucc : succ (s.1 (toAsciiLowercase header.1)) =
      .ok (s.1 (toAsciiLowercase header.1) + 1) := if_pos (by omega)
  -- The counter is the number of fields of this name so far, and a `u32` holds it.
  have hnext : s.1 (toAsciiLowercase header.1) + 1 =
      rawOccurrence (done ++ [header]) done.length header.1 := by
    have hall : (done ++ [header]).take (done.length + 1) = done ++ [header] :=
      List.take_of_length_le (by simp)
    rw [rawOccurrence, hall, countP_concat_name, ← hcount, UInt32.ofNat_add, UInt32.ofNat_toNat]
    rfl
  have hnat : (s.1 (toAsciiLowercase header.1) + 1).toNat =
      (done ++ [header]).countP fun h =>
        toAsciiLowercase h.1 == toAsciiLowercase header.1 := by
    rw [countP_concat_name, ← hcount, UInt32.toNat_add]
    exact Nat.mod_eq_of_lt (by rw [hcount]; exact lt_of_le_of_lt (Nat.succ_le_succ hle) hfew)
  refine ⟨_, by rw [countName, hsucc]; rfl, ⟨fun name => ?_, ?_, fun i h hi => ?_⟩⟩
  · show (Function.update s.1 _ _ name).toNat = _
    by_cases hname : name = toAsciiLowercase header.1
    · subst hname
      rw [Function.update_self, hnat]
    · rw [Function.update_of_ne hname, hs.count, List.countP_append]
      simp [Ne.symm hname]
  · simp [hs.length]
  · show (s.2 ++ [_])[i]? = _
    rcases Nat.lt_or_ge i done.length with hlt | hge
    · have hin : i < s.2.length := hs.length ▸ hlt
      rw [List.getElem?_append_left hlt] at hi
      rw [List.getElem?_append_left hin, hs.occurrence i h hi, rawOccurrence, rawOccurrence,
        List.take_append_of_le_length hlt]
    -- The field just counted is the last one.
    · have hlast : i = done.length := by
        have hbound := (List.getElem?_eq_some_iff.mp hi).1
        rw [List.length_append, List.length_singleton] at hbound
        omega
      subst hlast
      obtain rfl : header = h := by simpa using hi
      rw [← hnext, ← hs.length, List.getElem?_concat_length]

/-- So are all headers, while there are few. -/
theorem Counted.run {rest done : List (Bytes × Bytes)} {s : (Bytes → UInt32) × List UInt32}
    (hs : Counted done s) (hfew : (done ++ rest).length < 2 ^ 32) :
    ∃ s', rest.foldlM countName s = .ok s' ∧ Counted (done ++ rest) s' := by
  induction rest generalizing done s with
  | nil => exact ⟨s, rfl, by rwa [List.append_nil]⟩
  | cons header rest ih =>
    rw [List.append_cons] at hfew ⊢
    have hone : done.length + 1 < 2 ^ 32 := by
      rw [List.length_append, List.length_append, List.length_singleton] at hfew
      omega
    obtain ⟨s', hstep, hs'⟩ := hs.step header hone
    obtain ⟨t, hrun, ht⟩ := ih hs' hfew
    refine ⟨t, ?_, ht⟩
    rw [List.foldlM_cons, hstep]
    exact hrun

/-- **The counters stay below their limit.** -/
theorem occurrences_ok {original : List (Bytes × Bytes)} (hfew : original.length < 2 ^ 32) :
    ∃ counts, occurrences original = .ok counts ∧ counts.length = original.length ∧
      ∀ i header, original[i]? = some header →
        counts[i]? = some (rawOccurrence original i header.1) := by
  have hstart : Counted [] (fun _ => 0, []) := ⟨fun _ => rfl, rfl, by simp⟩
  obtain ⟨s, hrun, hs⟩ : ∃ s, original.foldlM countName (fun _ => 0, []) = .ok s ∧
      Counted ([] ++ original) s := hstart.run hfew
  refine ⟨s.2, ?_, hs.length, hs.occurrence⟩
  rw [occurrences, hrun]
  rfl

/-! ### Matching -/

/-- Keep the original of a field or insert the field at its position. -/
def matchField (leadingSpace : Bool) (original : List (Bytes × Bytes)) (m : Matching)
    (x : (Bytes × Bytes) × ℕ) : Result Matching :=
  match matched leadingSpace original m.cursor x.1 with
  | some i => do
    let retained ← store m.retained i true
    return { m with retained, cursor := i + 1 }
  | none => do
    let name ← text x.1.1
    let value ← text x.1.2
    return { m with
      inserted := m.inserted ++ [.insertRawHeader (UInt32.ofNat x.2) name value] }

/-- Delete an original field. -/
def rawDelete (original : List (Bytes × Bytes)) (counts : List UInt32) (i : ℕ) :
    Result Modification := do
  let header ← index original i
  let name ← text header.1
  let occurrence ← index counts i
  return .changeHeader occurrence name []

/-- Delete the fields that were not kept, at the given positions. -/
def rawDeletes (original : List (Bytes × Bytes)) (counts : List UInt32) (retained : List Bool) :
    List ℕ → Result (List Modification)
  | [] => .ok []
  | i :: rest => do
    let kept ← index retained i
    if kept then rawDeletes original counts retained rest
    else do
      let delete ← rawDelete original counts i
      let deletes ← rawDeletes original counts retained rest
      return delete :: deletes

/-- The header edits that turn the original fields into the given ones. -/
def fieldEdits (leadingSpace : Bool) (original fields : List (Bytes × Bytes)) :
    Result (List Modification) := do
  let counts ← occurrences original
  let m ← fields.zipIdx.foldlM (matchField leadingSpace original)
    { retained := List.replicate original.length false }
  let deletes ← rawDeletes original counts m.retained (List.range original.length).reverse
  return deletes ++ m.inserted

/-- The edits that replace the milter-visible message. -/
def rawReplacement (b64 : Base64) (value : Json) (session : Session) :
    Result (List Modification) := do
  let raw ← decodeRaw b64 session.limits value
  let (fields, bodyStart) ← readFields session.limits raw (raw.length + 1) 0 []
  let edits ← fieldEdits session.leadingSpace session.message.headers
    (fields.map (RawField.field raw))
  let rest ← rangeFrom raw bodyStart
  let body := if rest ≠ session.message.body then [Modification.replaceBody rest] else []
  rejectIf (session.limits.modifications < (edits ++ body).length)
    (.limit "replacement modifications")
  return edits ++ body

/-- Only an original is marked. -/
theorem matchField_agrees {ls : Bool} {original : List (Bytes × Bytes)} {m : Matching}
    (hm : m.retained.length = original.length) (x : (Bytes × Bytes) × ℕ) :
    Agrees (fun m' => m'.retained.length = original.length) (matchField ls original m x)
      (Hooks.matchField ls original m x) := by
  unfold matchField Hooks.matchField
  cases hmatched : matched ls original m.cursor x.1 with
  | some i =>
    -- A match is a position among the originals, and there is one mark for each.
    have hlt : i < m.retained.length := hm ▸ (matched_eq_some hmatched).2.1
    dsimp only
    rw [store_of_lt hlt]
    exact .ok ((List.length_set).trans hm)
  | none =>
    refine (text_agrees _).bind fun name _ => (text_agrees _).bind fun value _ => ?_
    exact .ok hm

/-- A deletion finds its occurrence among the counted ones. -/
theorem rawDelete_agrees {original : List (Bytes × Bytes)} {counts : List UInt32} {i : ℕ}
    (hi : i < original.length)
    (hcounts : ∀ i header, original[i]? = some header →
      counts[i]? = some (rawOccurrence original i header.1)) :
    Agrees (fun _ => True) (rawDelete original counts i) (Hooks.rawDelete original i) := by
  have hsome : original[i]? = some original[i] := List.getElem?_eq_getElem hi
  unfold rawDelete Hooks.rawDelete
  rw [index_of_lt hi, hsome]
  refine (text_agrees original[i].1).bind fun name _ => ?_
  rw [index, hcounts i _ hsome]
  exact .ok trivial

/-- The loop over the positions deletes the fields that were not kept. -/
theorem rawDeletes_agrees {original : List (Bytes × Bytes)} {counts : List UInt32}
    {retained : List Bool} {is : List ℕ} (hretained : retained.length = original.length)
    (hcounts : ∀ i header, original[i]? = some header →
      counts[i]? = some (rawOccurrence original i header.1))
    (his : ∀ i ∈ is, i < original.length) :
    Agrees (fun _ => True) (rawDeletes original counts retained is)
      ((is.filter fun i => retained[i]? = some false).mapM (Hooks.rawDelete original)) := by
  induction is with
  | nil => exact .ok trivial
  | cons i is ih =>
    have hlt : i < original.length := his i List.mem_cons_self
    have hin : i < retained.length := hretained.symm ▸ hlt
    have hsome : retained[i]? = some retained[i] := List.getElem?_eq_getElem hin
    have hrest := ih fun j hj => his j (List.mem_cons_of_mem i hj)
    unfold rawDeletes
    rw [index_of_lt hin]
    cases hkept : retained[i] with
    | true =>
      rw [List.filter_cons_of_neg (by simp [hsome, hkept])]
      exact hrest
    | false =>
      rw [List.filter_cons_of_pos (by simp [hsome, hkept]), List.mapM_cons]
      refine (rawDelete_agrees hlt hcounts).bind fun delete _ => ?_
      exact hrest.bind fun deletes _ => .ok trivial

/-- **The matcher marks and deletes originals only.** -/
theorem fieldEdits_agrees {original : List (Bytes × Bytes)} (hfew : original.length < 2 ^ 32)
    (ls : Bool) (fields : List (Bytes × Bytes)) :
    Agrees (fun _ => True) (fieldEdits ls original fields)
      (Hooks.fieldEdits ls original fields) := by
  obtain ⟨counts, hok, -, hcounts⟩ := occurrences_ok hfew
  unfold fieldEdits Hooks.fieldEdits
  rw [hok]
  have hstart : ({ retained := List.replicate original.length false } : Matching).retained.length =
      original.length := List.length_replicate
  have hloop : Agrees (fun m : Matching => m.retained.length = original.length)
      (fields.zipIdx.foldlM (matchField ls original)
        { retained := List.replicate original.length false })
      (fields.zipIdx.foldlM (Hooks.matchField ls original)
        { retained := List.replicate original.length false }) :=
    Agreement.Agrees.foldlM hstart fun m x _ hm => matchField_agrees hm x
  refine hloop.bind fun m hm => ?_
  have hdeletes : Agrees (fun _ => True)
      (rawDeletes original counts m.retained (List.range original.length).reverse) _ :=
    rawDeletes_agrees hm hcounts fun i hi => List.mem_range.mp (List.mem_reverse.mp hi)
  rw [dropped, hm]
  exact hdeletes.bind fun _ _ => .ok trivial

/-- A raw message is decoded without a panic. -/
theorem decodeRaw_safe (b64 : Base64) (limits : Limits) (value : Json) :
    (decodeRaw b64 limits value).Safe :=
  .bind (.okOr _ rfl) fun _ => .bind (.rejectIf _ rfl) fun _ => .bind (.okOr _ rfl) fun _ =>
    .bind (.rejectIf _ rfl) fun _ => .pure _

/-- **No index of the raw replacement is out of bounds.** -/
theorem rawReplacement_agrees (b64 : Base64) (value : Json) {session : Session}
    (hfew : session.message.headers.length < 2 ^ 32) :
    Agrees (fun _ => True) (rawReplacement b64 value session)
      (Hooks.rawReplacement b64 value session) := by
  have hdecode := Agreement.Agrees.refl (decodeRaw_safe b64 session.limits value)
  refine hdecode.bind fun raw _ => ?_
  have hread : Agrees (fun r => r.2 ≤ raw.length)
      (readFields session.limits raw (raw.length + 1) 0 []) _ :=
    readFields_agrees (by simp [Before]) (Nat.zero_le _) (by omega)
  refine hread.bind fun r hr => ?_
  obtain ⟨fields, bodyStart⟩ := r
  refine (fieldEdits_agrees hfew _ _).bind fun edits _ => ?_
  rw [rangeFrom_of_le hr]
  exact (rejectIf_agrees _ rfl).bind fun _ _ => .ok trivial

end Checked

end MtaHooks
