import MtaHooks.Hooks.RawMessage

namespace MtaHooks

/-!
# The fields of a raw message

`IsMessage` says what the fields and the body of a raw message are; the reader of
`rawReplacement` is compared with it.

* `readFields_sound` — what the reader returns are the fields and the body;
* `readFields_fuel` — the reader never runs out of fuel;
* `readFields_complete` — a message within the limit is read; so its fields and its body are
  unique (`IsMessage.unique`).
-/

namespace Hooks

/-! ### The grammar -/

/-- A line: its content and its bytes.  A CR directly before the LF belongs to the line end. -/
inductive IsLine : Bytes → Bytes → Prop
  | lf {content : Bytes} (hlf : byte '\n' ∉ content) (hcr : content.getLast? ≠ some (byte '\r')) :
    IsLine content (content ++ [byte '\n'])
  | crlf {content : Bytes} (hlf : byte '\n' ∉ content) :
    IsLine content (content ++ [byte '\r', byte '\n'])

/-- A field name. -/
def IsName (name : Bytes) : Prop := name ≠ [] ∧ name.all isHeaderNameByte = true

/-- A field: its name, its value and its bytes.  A line end followed by a continuation line is
    part of the value. -/
inductive IsField : Bytes → Bytes → Bytes → Prop
  | line {name value text : Bytes} (hname : IsName name)
      (hline : IsLine (name ++ byte ':' :: value) text) : IsField name value text
  | fold {name value eol text line lineText : Bytes} (hfield : IsField name value text)
      (htext : text = name ++ byte ':' :: (value ++ eol)) (hline : IsLine line lineText)
      (hcontinues : isContinuation line = true) :
    IsField name (value ++ eol ++ line) (text ++ lineText)

/-- A message: fields, an empty line and the body. -/
def IsMessage (raw : Bytes) (fields : List (Bytes × Bytes)) (body : Bytes) : Prop :=
  ∃ texts eol, List.Forall₂ (fun field text => IsField field.1 field.2 text) fields texts ∧
    IsLine [] eol ∧ raw = texts.flatten ++ eol ++ body

/-! ### Slices -/

/-- Two slices next to each other are one. -/
theorem slice_append (raw : Bytes) {a b c : ℕ} (hab : a ≤ b) (hbc : b ≤ c) :
    slice raw a b ++ slice raw b c = slice raw a c := by
  unfold slice
  have htake : raw.take b = (raw.take c).take b := by
    rw [List.take_take, Nat.min_eq_left hbc]
  rw [htake]
  generalize raw.take c = l
  rw [List.drop_take]
  have hdrop : l.drop b = (l.drop a).drop (b - a) := by
    rw [List.drop_drop]
    congr 1
    omega
  rw [hdrop, List.take_append_drop]

/-- A slice goes on from what is before it. -/
theorem take_append_slice (raw : Bytes) {a b : ℕ} (hab : a ≤ b) :
    raw.take a ++ slice raw a b = raw.take b := by
  have h := slice_append raw (Nat.zero_le a) hab
  simpa [slice] using h

/-- A slice within the message has its own length. -/
theorem length_slice {raw : Bytes} {a b : ℕ} (hb : b ≤ raw.length) :
    (slice raw a b).length = b - a := by
  rw [slice, List.length_drop, List.length_take, Nat.min_eq_left hb]

/-- A slice that is two pieces splits between them. -/
theorem slice_split {raw x y : Bytes} {a c : ℕ} (hc : c ≤ raw.length) (hac : a ≤ c)
    (h : slice raw a c = x ++ y) :
    a + x.length ≤ c ∧ slice raw a (a + x.length) = x ∧ slice raw (a + x.length) c = y := by
  have hlength := congrArg List.length h
  rw [length_slice hc, List.length_append] at hlength
  have hle : a + x.length ≤ c := by omega
  rw [← slice_append raw (Nat.le_add_right a x.length) hle] at h
  have hx : (slice raw a (a + x.length)).length = x.length := by
    rw [length_slice (hle.trans hc)]
    omega
  exact ⟨hle, List.append_inj h hx⟩

/-- A slice of the bytes at an offset. -/
theorem slice_of_drop {raw x y : Bytes} {a : ℕ} (h : raw.drop a = x ++ y) :
    slice raw a (a + x.length) = x := by
  rw [slice, List.drop_take, h, Nat.add_sub_cancel_left, List.take_left]

/-- What is behind a part that stands at an offset. -/
theorem drop_of_drop {raw x y : Bytes} {a : ℕ} (h : raw.drop a = x ++ y) :
    raw.drop (a + x.length) = y := by
  rw [← List.drop_drop, h, List.drop_left]

/-! ### One line -/

/-- The content of a line ends before its CR, if it has one. -/
theorem contentEnd_eq {raw before rest : Bytes} {offset : ℕ}
    (h : raw.drop offset = before ++ rest) :
    contentEnd raw offset (offset + before.length) =
      if before.getLast? = some (byte '\r') then offset + before.length - 1
      else offset + before.length := by
  unfold contentEnd
  rcases before.eq_nil_or_concat with rfl | ⟨init, last, rfl⟩
  · simp
  · have hat : raw[offset + (init.concat last).length - 1]? = some last := by
      have hlength : offset + (init.concat last).length - 1 = offset + init.length := by
        simp
      rw [hlength, ← List.getElem?_drop, h]
      simp
    rw [hat]
    simp

/-- The reader finds the next line. -/
theorem lineAt_ok {raw : Bytes} {offset content stop : ℕ}
    (h : lineAt raw offset = .ok (content, stop)) :
    offset ≤ content ∧ content ≤ stop ∧ stop < raw.length ∧
      IsLine (slice raw offset content) (slice raw offset (stop + 1)) := by
  obtain ⟨n, hn, h⟩ := Result.bind_ok_iff.mp h
  obtain ⟨rfl, rfl⟩ := Prod.mk.inj (Except.ok.inj h)
  obtain ⟨before, after, hsplit, hlf, rfl⟩ := findIdx?_byte.mp (okOr_eq_ok.mp hn)
  have hlt : offset + before.length < raw.length := by
    have hlength := congrArg List.length hsplit
    rw [List.length_drop, List.length_append, List.length_cons] at hlength
    omega
  have htext : slice raw offset (offset + before.length + 1) = before ++ [byte '\n'] := by
    have hsplit' : raw.drop offset = (before ++ [byte '\n']) ++ after := by
      rw [hsplit, List.append_assoc]
      rfl
    have hslice := slice_of_drop hsplit'
    rwa [List.length_append, List.length_singleton, ← Nat.add_assoc] at hslice
  rw [contentEnd_eq hsplit, htext]
  by_cases hcr : before.getLast? = some (byte '\r')
  · obtain ⟨init, rfl⟩ : ∃ init, before = init ++ [byte '\r'] :=
      ⟨_, (List.dropLast_append_getLast? _ hcr).symm⟩
    have hslice : slice raw offset (offset + init.length) = init := by
      refine slice_of_drop (y := byte '\r' :: byte '\n' :: after) ?_
      rw [hsplit, List.append_assoc]
      rfl
    rw [if_pos hcr, List.length_append, List.length_singleton, Nat.add_succ_sub_one,
      Nat.add_zero, hslice, List.append_assoc]
    refine ⟨by omega, by omega, by simpa [Nat.add_assoc] using hlt, .crlf fun h => hlf ?_⟩
    exact List.mem_append_left _ h
  · rw [if_neg hcr, slice_of_drop hsplit]
    exact ⟨by omega, le_rfl, hlt, .lf hlf hcr⟩

/-- The reader reads the line that stands at an offset. -/
theorem lineAt_of_isLine {raw content text rest : Bytes} {offset : ℕ}
    (hline : IsLine content text) (h : raw.drop offset = text ++ rest) :
    lineAt raw offset = .ok (offset + content.length, offset + text.length - 1) := by
  obtain ⟨before, hbefore, hlf, hcontent⟩ : ∃ before, text = before ++ [byte '\n'] ∧
      byte '\n' ∉ before ∧ offset + content.length =
        if before.getLast? = some (byte '\r') then offset + before.length - 1
        else offset + before.length := by
    cases hline with
    | lf hlf hcr => exact ⟨content, rfl, hlf, by rw [if_neg hcr]⟩
    | crlf hlf =>
      refine ⟨content ++ [byte '\r'], by simp, ?_, by simp⟩
      rw [List.mem_append, not_or]
      exact ⟨hlf, by decide⟩
  subst hbefore
  have hsplit : raw.drop offset = before ++ byte '\n' :: rest := by
    rw [h, List.append_assoc]
    rfl
  have hn : (raw.drop offset).findIdx? (· = byte '\n') = some before.length :=
    findIdx?_byte.mpr ⟨before, rest, hsplit, hlf, rfl⟩
  unfold lineAt
  rw [hn, hcontent, ← contentEnd_eq hsplit]
  simp only [okOr_some, List.length_append, List.length_singleton]
  rfl

/-! ### The reader is sound -/

/-- The bytes up to a position are the fields read so far, and the places of the fields are
    right. -/
inductive Read (raw : Bytes) : List RawField → ℕ → Prop
  | nil : Read raw [] 0
  | field {fields : List RawField} {p q : ℕ} {f : RawField} (hread : Read raw fields p)
      (hname : slice raw p f.start = f.name ++ [byte ':']) (hp : p ≤ f.start)
      (hstart : f.start ≤ f.stop) (hstop : f.stop ≤ q)
      (hfield : IsField f.name (slice raw f.start f.stop) (slice raw p q)) :
    Read raw (fields ++ [f]) q

/-- What was read is a sequence of fields. -/
theorem Read.fields {raw : Bytes} {fields : List RawField} {q : ℕ} (h : Read raw fields q) :
    ∃ texts, List.Forall₂ (fun field text => IsField field.1 field.2 text)
        (fields.map (RawField.field raw)) texts ∧ texts.flatten = raw.take q := by
  induction h with
  | nil => exact ⟨[], .nil, rfl⟩
  | @field fields p q f hread hname hp hstart hstop hfield ih =>
    obtain ⟨texts, hall, hflat⟩ := ih
    refine ⟨texts ++ [slice raw p q], ?_, ?_⟩
    · rw [List.map_append]
      exact List.rel_append hall (.cons hfield .nil)
    · rw [List.flatten_append, hflat, List.flatten_singleton]
      exact take_append_slice raw (by omega)

/-- A continuation line extends the last field. -/
theorem Read.extendLast {raw : Bytes} {fields fields' : List RawField} {q content stop : ℕ}
    (h : Read raw fields q) (hq : q ≤ content) (hcontent : content ≤ stop)
    (hline : IsLine (slice raw q content) (slice raw q stop))
    (hcontinues : isContinuation (slice raw q content) = true)
    (hextend : extendLast fields content = .ok fields') : Read raw fields' stop := by
  cases h with
  | nil => exact nomatch hextend
  | @field fields p q f hread hname hp hstart hstop hfield =>
    have hfields : fields' = fields ++ [{ f with stop := content }] := by
      unfold Hooks.extendLast at hextend
      rw [List.getLast?_concat, List.dropLast_concat] at hextend
      exact (Except.ok.inj hextend).symm
    rw [hfields]
    have htext : slice raw p q = f.name ++ byte ':' ::
        (slice raw f.start f.stop ++ slice raw f.stop q) := by
      rw [slice_append raw hstart hstop, ← slice_append raw hp (hstart.trans hstop), hname,
        List.append_assoc]
      rfl
    have hlonger := IsField.fold hfield htext hline hcontinues
    rw [slice_append raw hstart hstop, slice_append raw (hstart.trans hstop) hq,
      slice_append raw (by omega) (by omega)] at hlonger
    exact .field (f := { f with stop := content }) hread hname hp (by show f.start ≤ content; omega)
      hcontent hlonger

/-- Any other line starts a field. -/
theorem Read.newField {limits : Limits} {raw : Bytes} {fields fields' : List RawField}
    {q content stop : ℕ} (h : Read raw fields q) (hq : q ≤ content) (hcontent : content ≤ stop)
    (hstop : stop ≤ raw.length) (hline : IsLine (slice raw q content) (slice raw q stop))
    (hnew : newField limits raw q content fields = .ok fields') : Read raw fields' stop := by
  obtain ⟨colon, hcolon, hnew⟩ := Result.bind_ok_iff.mp hnew
  obtain ⟨_, hname, hnew⟩ := Result.bind_ok_iff.mp hnew
  obtain ⟨_, -, hnew⟩ := Result.bind_ok_iff.mp hnew
  obtain rfl := Except.ok.inj hnew
  obtain ⟨name, value, hsplit, -, rfl⟩ := findIdx?_byte.mp (okOr_eq_ok.mp hcolon)
  have hname' : (slice raw q content).take name.length = name := by
    rw [hsplit, List.take_left]
  rw [hname'] at hname ⊢
  have hvalid : IsName name := by
    have h := rejectIf_eq_ok.mp hname
    rw [not_or, not_not] at h
    exact h
  have hcolon' : slice raw q content = (name ++ [byte ':']) ++ value := by
    rw [hsplit, List.append_assoc]
    rfl
  obtain ⟨hle, hfront, hback⟩ := slice_split (hcontent.trans hstop) hq hcolon'
  rw [List.length_append, List.length_singleton, ← Nat.add_assoc] at hle hfront hback
  refine .field h hfront (by show q ≤ q + name.length + 1; omega) hle hcontent ?_
  show IsField name (slice raw (q + name.length + 1) content) (slice raw q stop)
  rw [hback]
  refine .line hvalid ?_
  rw [← hsplit]
  exact hline

/-- The loop of the reader. -/
theorem Read.readFields {limits : Limits} {raw : Bytes} {fuel q : ℕ}
    {fields fields' : List RawField} {bodyStart : ℕ} (h : Read raw fields q)
    (hread : readFields limits raw fuel q fields = .ok (fields', bodyStart)) :
    ∃ p, Read raw fields' p ∧ p ≤ bodyStart ∧ IsLine [] (slice raw p bodyStart) := by
  induction fuel generalizing q fields with
  | zero => exact nomatch hread
  | succ fuel ih =>
    obtain ⟨⟨content, stop⟩, hlineAt, hread⟩ := Result.bind_ok_iff.mp hread
    obtain ⟨hq, hcontent, hstop, hline⟩ := lineAt_ok hlineAt
    rcases Result.ite_ok hread with ⟨hempty, hread⟩ | ⟨-, hread⟩
    · obtain ⟨rfl, rfl⟩ := Prod.mk.inj (Except.ok.inj hread)
      rw [hempty] at hline
      exact ⟨q, h, by omega, hline⟩
    · obtain ⟨next, hnext, hread⟩ := Result.bind_ok_iff.mp hread
      unfold addLine at hnext
      rcases Result.ite_ok hnext with ⟨hcontinues, hnext⟩ | ⟨-, hnext⟩
      · exact ih (h.extendLast hq (by omega) hline hcontinues hnext) hread
      · exact ih (h.newField hq (by omega) hstop hline hnext) hread

/-- **The reader is sound.** -/
theorem readFields_sound {limits : Limits} {raw : Bytes} {fuel bodyStart : ℕ}
    {fields : List RawField} (h : readFields limits raw fuel 0 [] = .ok (fields, bodyStart)) :
    IsMessage raw (fields.map (RawField.field raw)) (raw.drop bodyStart) := by
  obtain ⟨p, hread, hp, hline⟩ := Read.nil.readFields h
  obtain ⟨texts, hall, hflat⟩ := hread.fields
  refine ⟨texts, _, hall, hline, ?_⟩
  rw [hflat, take_append_slice raw hp, List.take_append_drop]

/-- The reader stays within the limit on fields. -/
theorem readFields_limit {limits : Limits} {raw : Bytes} {fuel q bodyStart : ℕ}
    {fields fields' : List RawField} (hfields : fields.length ≤ limits.headers)
    (h : readFields limits raw fuel q fields = .ok (fields', bodyStart)) :
    fields'.length ≤ limits.headers := by
  induction fuel generalizing q fields with
  | zero => exact nomatch h
  | succ fuel ih =>
    obtain ⟨⟨content, stop⟩, -, h⟩ := Result.bind_ok_iff.mp h
    rcases Result.ite_ok h with ⟨-, h⟩ | ⟨-, h⟩
    · obtain ⟨rfl, -⟩ := Prod.mk.inj (Except.ok.inj h)
      exact hfields
    · obtain ⟨next, hnext, h⟩ := Result.bind_ok_iff.mp h
      refine ih ?_ h
      unfold addLine at hnext
      rcases Result.ite_ok hnext with ⟨-, hnext⟩ | ⟨-, hnext⟩
      · unfold extendLast at hnext
        rcases fields.eq_nil_or_concat with rfl | ⟨init, last, rfl⟩
        · exact nomatch hnext
        · rw [List.concat_eq_append, List.getLast?_concat, List.dropLast_concat] at hnext
          obtain rfl := Except.ok.inj hnext
          simpa using hfields
      · obtain ⟨_, -, hnext⟩ := Result.bind_ok_iff.mp hnext
        obtain ⟨_, -, hnext⟩ := Result.bind_ok_iff.mp hnext
        obtain ⟨_, hlimit, hnext⟩ := Result.bind_ok_iff.mp hnext
        obtain rfl := Except.ok.inj hnext
        have hlt := Nat.lt_of_not_le (rejectIf_eq_ok.mp hlimit)
        rw [List.length_append, List.length_singleton]
        omega

/-- Lines and fields fail on the text of the message and on the limit only. -/
theorem addLine_error {limits : Limits} {raw : Bytes} {offset stop : ℕ} {fields : List RawField}
    {e : Error} (h : addLine limits raw offset stop fields = .error e) : e ≠ .panic "fuel" := by
  unfold addLine at h
  split at h
  · unfold extendLast at h
    split at h
    · exact nomatch h
    · obtain rfl := Except.error.inj h
      decide
  · rcases Result.bind_error_iff.mp h with h | ⟨_, -, h⟩
    · rw [okOr_eq_error h]
      decide
    rcases Result.bind_error_iff.mp h with h | ⟨_, -, h⟩
    · rw [rejectIf_eq_error h]
      decide
    rcases Result.bind_error_iff.mp h with h | ⟨_, -, h⟩
    · rw [rejectIf_eq_error h]
      decide
    · exact nomatch h

/-- **The length of the message is fuel enough.**  The bound that stands for the loop of the source
    is never what ends the reader, so each of its failures, wherever a result speaks of one, is a
    failure of the source. -/
theorem readFields_fuel {limits : Limits} {raw : Bytes} {fuel offset : ℕ} {fields : List RawField}
    (hoffset : offset ≤ raw.length) (hfuel : raw.length < offset + fuel) :
    readFields limits raw fuel offset fields ≠ .error (.panic "fuel") := by
  induction fuel generalizing offset fields with
  | zero => omega
  | succ fuel ih =>
    intro h
    rcases Result.bind_error_iff.mp h with h | ⟨⟨content, stop⟩, hline, h⟩
    · rcases Result.bind_error_iff.mp h with h | ⟨_, -, h⟩
      · exact absurd (okOr_eq_error h) (by decide)
      · exact nomatch h
    · obtain ⟨hcontent, hstop, hlt, -⟩ := lineAt_ok hline
      change (if slice raw offset content = [] then _ else _) = _ at h
      split at h
      · exact nomatch h
      · rcases Result.bind_error_iff.mp h with h | ⟨next, -, h⟩
        · exact addLine_error h rfl
        · exact ih (by omega) (by omega) h

/-! ### The reader is complete -/

/-- A line has an end, so it is not empty. -/
theorem IsLine.ne_nil {content text : Bytes} (h : IsLine content text) : text ≠ [] := by
  cases h <;> simp

/-- The content stands at the front of the line. -/
theorem IsLine.slice {raw content text rest : Bytes} {offset : ℕ} (hline : IsLine content text)
    (h : raw.drop offset = text ++ rest) :
    slice raw offset (offset + content.length) = content := by
  cases hline with
  | lf hlf hcr => exact slice_of_drop (by rw [h, List.append_assoc])
  | crlf hlf => exact slice_of_drop (by rw [h, List.append_assoc])

/-- The bytes of a field start with its name and its value. -/
theorem IsField.text_eq {name value text : Bytes} (h : IsField name value text) :
    ∃ eol, text = name ++ byte ':' :: (value ++ eol) := by
  cases h with
  | line hname hline =>
    cases hline with
    | lf hlf hcr => exact ⟨[byte '\n'], by simp⟩
    | crlf hlf => exact ⟨[byte '\r', byte '\n'], by simp⟩
  | @fold value eol text line lineText hfield htext hline hcontinues =>
    obtain ⟨lineEnd, rfl⟩ : ∃ lineEnd, lineText = line ++ lineEnd := by
      cases hline with
      | lf hlf hcr => exact ⟨_, rfl⟩
      | crlf hlf => exact ⟨_, rfl⟩
    exact ⟨lineEnd, by rw [htext]; simp⟩

/-- A name has no colon. -/
theorem IsName.not_colon {name : Bytes} (h : IsName name) : byte ':' ∉ name := by
  intro hmem
  have hbyte := List.all_eq_true.mp h.2 _ hmem
  exact absurd hbyte (by decide)

/-- A line that starts with a name continues no field. -/
theorem IsName.not_continuation {name rest : Bytes} (h : IsName name) :
    isContinuation (name ++ rest) = false := by
  cases name with
  | nil => exact absurd rfl h.1
  | cons c name =>
    have hbyte := List.all_eq_true.mp h.2 c List.mem_cons_self
    have hspace : c ≠ byte ' ' := by
      rintro rfl
      exact absurd hbyte (by decide)
    have htab : c ≠ byte '\t' := by
      rintro rfl
      exact absurd hbyte (by decide)
    simp [isContinuation, hspace, htab]

/-- The places of a field that stands at an offset. -/
def placed (offset : ℕ) (name value : Bytes) : RawField :=
  ⟨name, offset + name.length + 1, offset + name.length + 1 + value.length⟩

/-- The places of a field in the message give the field back. -/
theorem IsField.placed_field {raw name value text rest : Bytes} {offset : ℕ}
    (hfield : IsField name value text) (h : raw.drop offset = text ++ rest) :
    (placed offset name value).field raw = (name, value) := by
  obtain ⟨eol, rfl⟩ := hfield.text_eq
  have hsplit : raw.drop offset = (name ++ [byte ':']) ++ (value ++ (eol ++ rest)) := by
    rw [h]
    simp
  have hvalue := slice_of_drop (drop_of_drop hsplit)
  rw [List.length_append, List.length_singleton, ← Nat.add_assoc] at hvalue
  exact Prod.ext rfl hvalue

/-- One step of the reader on a line that is not empty. -/
theorem readFields_step {limits : Limits} {raw content text rest : Bytes} {offset fuel : ℕ}
    {fields : List RawField} (hline : IsLine content text) (h : raw.drop offset = text ++ rest)
    (hcontent : content ≠ []) :
    readFields limits raw (fuel + 1) offset fields =
      addLine limits raw offset (offset + content.length) fields >>=
        readFields limits raw fuel (offset + text.length) := by
  have hlength : offset + text.length - 1 + 1 = offset + text.length := by
    have := List.length_pos_iff.mpr hline.ne_nil
    omega
  show (lineAt raw offset >>= _) = _
  rw [lineAt_of_isLine hline h]
  show (if slice raw offset (offset + content.length) = [] then _ else _) = _
  rw [hline.slice h, if_neg hcontent, hlength]

/-- A line with a name and a colon starts a field. -/
theorem addLine_name {limits : Limits} {raw name value text rest : Bytes} {offset : ℕ}
    {fields : List RawField} (hname : IsName name)
    (hline : IsLine (name ++ byte ':' :: value) text) (h : raw.drop offset = text ++ rest)
    (hlimit : fields.length < limits.headers) :
    addLine limits raw offset (offset + (name ++ byte ':' :: value).length) fields =
      .ok (fields ++ [placed offset name value]) := by
  have hcolon : (name ++ byte ':' :: value).findIdx? (· = byte ':') = some name.length :=
    findIdx?_byte.mpr ⟨name, value, rfl, hname.not_colon, rfl⟩
  have hvalid : ¬ (name = [] ∨ ¬ name.all isHeaderNameByte = true) := by
    rw [not_or, not_not]
    exact hname
  unfold addLine
  rw [hline.slice h, hname.not_continuation, if_neg (by simp)]
  refine Result.bind_ok_iff.mpr ⟨name.length, ?_, ?_⟩
  · rw [hline.slice h, hcolon, okOr_some]
  rw [hline.slice h, List.take_left]
  refine Result.bind_ok_iff.mpr ⟨(), rejectIf_eq_ok.mpr hvalid, ?_⟩
  refine Result.bind_ok_iff.mpr ⟨(), rejectIf_eq_ok.mpr (Nat.not_le_of_lt hlimit), ?_⟩
  have hstop : offset + (name ++ byte ':' :: value).length =
      offset + name.length + 1 + value.length := by
    rw [List.length_append, List.length_cons]
    omega
  rw [hstop]
  rfl

/-- A continuation line makes the last value longer. -/
theorem addLine_fold {limits : Limits} {raw line lineText rest : Bytes} {offset : ℕ}
    {fields : List RawField} {f : RawField} (hline : IsLine line lineText)
    (hcontinues : isContinuation line = true) (h : raw.drop offset = lineText ++ rest) :
    addLine limits raw offset (offset + line.length) (fields ++ [f]) =
      .ok (fields ++ [{ f with stop := offset + line.length }]) := by
  unfold addLine extendLast
  rw [hline.slice h, if_pos hcontinues, List.getLast?_concat, List.dropLast_concat]

/-- The reader reads the field that stands at an offset. -/
theorem readFields_field {limits : Limits} {raw name value text rest : Bytes} {offset : ℕ}
    {fields : List RawField} (hfield : IsField name value text)
    (h : raw.drop offset = text ++ rest) (hlimit : fields.length < limits.headers) :
    ∃ lines ≤ text.length, ∀ fuel,
      readFields limits raw (fuel + lines) offset fields =
        readFields limits raw fuel (offset + text.length)
          (fields ++ [placed offset name value]) := by
  induction hfield generalizing rest with
  | @line value text hname hline =>
    refine ⟨1, List.length_pos_iff.mpr hline.ne_nil, fun fuel => ?_⟩
    rw [readFields_step hline h (by simp), addLine_name hname hline h hlimit]
    rfl
  | @fold value eol text line lineText hfield htext hline hcontinues ih =>
    rw [List.append_assoc] at h
    obtain ⟨lines, hle, ih⟩ := ih h
    have hpos := List.length_pos_iff.mpr hline.ne_nil
    refine ⟨lines + 1, ?_, fun fuel => ?_⟩
    · rw [List.length_append]
      omega
    · have hnext := drop_of_drop h
      have hcontent : line ≠ [] := by
        rintro rfl
        exact absurd hcontinues (by decide)
      rw [show fuel + (lines + 1) = fuel + 1 + lines by omega, ih,
        readFields_step hline hnext hcontent, addLine_fold hline hcontinues hnext]
      have hstop : offset + text.length + line.length =
          offset + name.length + 1 + (value ++ eol ++ line).length := by
        rw [htext]
        simp only [List.length_append, List.length_cons]
        omega
      have hafter :
          offset + text.length + lineText.length = offset + (text ++ lineText).length := by
        rw [List.length_append, Nat.add_assoc]
      rw [hstop, hafter]
      rfl

/-- The reader reads all fields that stand at an offset. -/
theorem readFields_all {limits : Limits} {raw rest : Bytes} {offset : ℕ}
    {fields : List (Bytes × Bytes)} {texts : List Bytes}
    (hall : List.Forall₂ (fun field text => IsField field.1 field.2 text) fields texts)
    (h : raw.drop offset = texts.flatten ++ rest) {before : List RawField}
    (hlimit : before.length + fields.length ≤ limits.headers) :
    ∃ lines ≤ texts.flatten.length, ∃ places : List RawField,
      places.map (RawField.field raw) = fields ∧ ∀ fuel,
      readFields limits raw (fuel + lines) offset before =
        readFields limits raw fuel (offset + texts.flatten.length) (before ++ places) := by
  induction hall generalizing offset before with
  | nil => exact ⟨0, le_rfl, [], rfl, fun fuel => by simp⟩
  | @cons field text fields texts hfield hall ih =>
    rw [List.length_cons] at hlimit
    rw [List.flatten_cons, List.append_assoc] at h
    have hroom : before.length < limits.headers := by omega
    obtain ⟨lines, hle, hfirst⟩ := readFields_field hfield h hroom
    have hmore : (before ++ [placed offset field.1 field.2]).length + fields.length ≤
        limits.headers := by
      rw [List.length_append, List.length_singleton]
      omega
    obtain ⟨lines', hle', places, hplaces, hrest⟩ := ih (drop_of_drop h) hmore
    refine ⟨lines + lines', ?_, placed offset field.1 field.2 :: places, ?_, fun fuel => ?_⟩
    · rw [List.flatten_cons, List.length_append]
      omega
    · rw [List.map_cons, hplaces, hfield.placed_field h]
    · rw [show fuel + (lines + lines') = fuel + lines' + lines by omega, hfirst, hrest,
        List.append_assoc, List.flatten_cons, List.length_append, Nat.add_assoc]
      rfl

/-- **The reader is complete.** -/
theorem readFields_complete {limits : Limits} {raw body : Bytes} {fields : List (Bytes × Bytes)}
    (h : IsMessage raw fields body) (hlimit : fields.length ≤ limits.headers) :
    ∃ places bodyStart, readFields limits raw (raw.length + 1) 0 [] = .ok (places, bodyStart) ∧
      places.map (RawField.field raw) = fields ∧ raw.drop bodyStart = body := by
  obtain ⟨texts, eol, hall, heol, rfl⟩ := h
  set raw := texts.flatten ++ eol ++ body with hraw
  have hdrop : raw.drop 0 = texts.flatten ++ (eol ++ body) := by
    rw [hraw, List.drop_zero, List.append_assoc]
  have hroom : ([] : List RawField).length + fields.length ≤ limits.headers := by
    simpa using hlimit
  obtain ⟨lines, hle, places, hplaces, hread⟩ := readFields_all hall hdrop hroom
  have hend := drop_of_drop hdrop
  refine ⟨places, texts.flatten.length + eol.length, ?_, hplaces, ?_⟩
  · have hpos := List.length_pos_iff.mpr heol.ne_nil
    obtain ⟨fuel, hfuel⟩ : ∃ fuel, raw.length + 1 = fuel + 1 + lines := by
      refine ⟨raw.length - lines, ?_⟩
      have hlength : texts.flatten.length ≤ raw.length := by
        rw [hraw, List.append_assoc, List.length_append]
        omega
      omega
    rw [hfuel, hread, Nat.zero_add]
    show (lineAt raw texts.flatten.length >>= _) = _
    rw [Nat.zero_add] at hend
    rw [lineAt_of_isLine heol hend]
    show (if slice raw texts.flatten.length (texts.flatten.length + ([] : Bytes).length) = [] then _
      else _) = _
    rw [heol.slice hend, if_pos rfl, show texts.flatten.length + eol.length - 1 + 1 =
      texts.flatten.length + eol.length by omega]
    rfl
  · rw [Nat.zero_add] at hend
    exact drop_of_drop hend

/-- A message has one list of fields and one body. -/
theorem IsMessage.unique {raw body body' : Bytes} {fields fields' : List (Bytes × Bytes)}
    (h : IsMessage raw fields body) (h' : IsMessage raw fields' body') :
    fields = fields' ∧ body = body' := by
  let limits : Limits := { headers := max fields.length fields'.length }
  have hfits : fields.length ≤ limits.headers := le_max_left _ _
  have hfits' : fields'.length ≤ limits.headers := le_max_right _ _
  obtain ⟨places, bodyStart, hread, rfl, rfl⟩ := readFields_complete h hfits
  obtain ⟨places', bodyStart', hread', rfl, rfl⟩ := readFields_complete h' hfits'
  rw [hread] at hread'
  obtain ⟨rfl, rfl⟩ := Prod.mk.inj (Except.ok.inj hread')
  exact ⟨rfl, rfl⟩

end Hooks

end MtaHooks
