import MtaHooks.Hooks.RawFields

namespace MtaHooks

/-!
# Header values and the header block

A value in which every line end is followed by space or tab is one field of the header block,
whatever else it holds, so no such value can end the block or smuggle in a field.

* `headerValue_eq_ok` — the values `header_value` accepts;
* `IsField.folded` — a folded value, serialised behind its name, is one field;
* `no_header_injection` — a header that can be encoded is exactly one field of the block it is
  put into.
-/

namespace Hooks

/-! ### The accepted values -/

/-- No control byte but TAB and line ends, every CR before an LF and every LF before a space or a
    tab. -/
structure IsHeaderValue (value : Bytes) : Prop where
  clean : ∀ c ∈ value, isAsciiControl c = true → c = byte '\t' ∨ c = byte '\r' ∨ c = byte '\n'
  cr : ∀ before after, value = before ++ byte '\r' :: after → after.head? = some (byte '\n')
  lf : ∀ before after, value = before ++ byte '\n' :: after → isContinuation after = true

/-- Every LF stands before a space or a tab. -/
def Folded (value : Bytes) : Prop :=
  ∀ before after, value = before ++ byte '\n' :: after → isContinuation after = true

/-- The empty value is one. -/
theorem isHeaderValue_nil : IsHeaderValue [] where
  clean := fun _ h => nomatch h
  cr := fun before after h => by simp at h
  lf := fun before after h => by simp at h

/-- What holds behind each occurrence in a longer list. -/
theorem forall_split_cons {P : Bytes → Prop} {c d : UInt8} {rest : Bytes} :
    (∀ before after, c :: rest = before ++ d :: after → P after) ↔
      (c = d → P rest) ∧ ∀ before after, rest = before ++ d :: after → P after := by
  constructor
  · intro h
    refine ⟨?_, fun before after hrest => h (c :: before) after (by rw [hrest]; rfl)⟩
    rintro rfl
    exact h [] rest rfl
  · rintro ⟨hfirst, hrest⟩ before after h
    cases before with
    | nil =>
      obtain ⟨rfl, rfl⟩ := List.cons.inj h
      exact hfirst rfl
    | cons b before =>
      obtain ⟨-, h⟩ := List.cons.inj h
      exact hrest before after h

/-- What the first byte of a value asks for. -/
theorem isHeaderValue_cons {c : UInt8} {rest : Bytes} :
    IsHeaderValue (c :: rest) ↔
      (isAsciiControl c = true → c = byte '\t' ∨ c = byte '\r' ∨ c = byte '\n') ∧
      (c = byte '\r' → rest.head? = some (byte '\n')) ∧
      (c = byte '\n' → isContinuation rest = true) ∧ IsHeaderValue rest := by
  constructor
  · rintro ⟨hclean, hcr, hlf⟩
    obtain ⟨hcr, hcr'⟩ := (forall_split_cons (P := fun l => l.head? = some (byte '\n'))).mp hcr
    obtain ⟨hlf, hlf'⟩ := (forall_split_cons (P := fun l => isContinuation l = true)).mp hlf
    rw [List.forall_mem_cons] at hclean
    exact ⟨hclean.1, hcr, hlf, hclean.2, hcr', hlf'⟩
  · rintro ⟨hclean, hcr, hlf, hrest⟩
    exact ⟨List.forall_mem_cons.mpr ⟨hclean, hrest.clean⟩,
      (forall_split_cons (P := fun l => l.head? = some (byte '\n'))).mpr ⟨hcr, hrest.cr⟩,
      (forall_split_cons (P := fun l => isContinuation l = true)).mpr ⟨hlf, hrest.lf⟩⟩

/-- A line goes on with a space or a tab. -/
theorem isContinuation_cons {c : UInt8} {rest : Bytes} :
    isContinuation (c :: rest) = true ↔ c = byte ' ' ∨ c = byte '\t' := by
  simp [isContinuation]

/-- A carriage return asks for a line feed. -/
theorem isHeaderValue_cr {rest : Bytes} :
    IsHeaderValue (byte '\r' :: rest) ↔ rest.head? = some (byte '\n') ∧ IsHeaderValue rest := by
  rw [isHeaderValue_cons]
  simp +decide

/-- A line feed asks for a continuation. -/
theorem isHeaderValue_lf {rest : Bytes} :
    IsHeaderValue (byte '\n' :: rest) ↔ isContinuation rest = true ∧ IsHeaderValue rest := by
  rw [isHeaderValue_cons]
  simp +decide

/-- The control bytes by number. -/
theorem isAsciiControl_iff {c : UInt8} : isAsciiControl c = true ↔ c < 32 ∨ c = 127 := by
  simp [isAsciiControl]

/-- A line feed has to be followed by a fold. -/
theorem headerValueLoop_lf {rest : Bytes} :
    headerValueLoop (byte '\n' :: rest) = .ok () ↔
      isContinuation rest = true ∧ headerValueLoop rest = .ok () := by
  conv_lhs => unfold headerValueLoop
  rw [if_neg (by decide), if_pos rfl]
  cases rest with
  | nil => simp [isContinuation]
  | cons fold rest =>
    rw [isContinuation_cons]
    by_cases hfold : fold = byte ' ' ∨ fold = byte '\t'
    · simp [hfold]
    · simp [hfold]

/-- The loop takes a CRLF in one step, which is the step of a CR and the step of the LF. -/
theorem headerValueLoop_cr {rest : Bytes} :
    headerValueLoop (byte '\r' :: rest) = .ok () ↔
      rest.head? = some (byte '\n') ∧ headerValueLoop rest = .ok () := by
  conv_lhs => unfold headerValueLoop
  rw [if_pos rfl]
  match rest with
  | [] => simp
  | [lf] =>
    -- a CRLF at the end of the value: the LF has no fold behind it
    have hend : ¬ (lf = byte '\n' ∧ headerValueLoop [lf] = .ok ()) := by
      rintro ⟨rfl, hlf⟩
      exact absurd (headerValueLoop_lf.mp hlf).1 (by decide)
    simpa using hend
  | lf :: fold :: rest =>
    by_cases hlf : lf = byte '\n'
    · subst hlf
      rw [headerValueLoop_lf, isContinuation_cons]
      by_cases hfold : fold = byte ' ' ∨ fold = byte '\t'
      · simp [hfold]
      · simp [hfold]
    · simp [hlf]

/-- Any other byte is no control byte, or a tab. -/
theorem headerValueLoop_other {c : UInt8} {rest : Bytes} (hcr : c ≠ byte '\r')
    (hlf : c ≠ byte '\n') :
    headerValueLoop (c :: rest) = .ok () ↔
      (isAsciiControl c = true → c = byte '\t') ∧ headerValueLoop rest = .ok () := by
  conv_lhs => unfold headerValueLoop
  rw [if_neg hcr, if_neg hlf, isAsciiControl_iff]
  by_cases hcontrol : (c < 32 ∧ c ≠ byte '\t') ∨ c = 127
  · rw [if_pos hcontrol]
    refine ⟨nofun, fun ⟨htab, _⟩ => ?_⟩
    rcases hcontrol with ⟨hlow, hne⟩ | rfl
    · exact absurd (htab (.inl hlow)) hne
    · exact absurd (htab (.inr rfl)) (by decide)
  · rw [if_neg hcontrol]
    rw [not_or, not_and, not_not] at hcontrol
    refine ⟨fun h => ⟨?_, h⟩, And.right⟩
    rintro (hlow | hdel)
    · exact hcontrol.1 hlow
    · exact absurd hdel hcontrol.2

/-- **The values `header_value` accepts.** -/
theorem headerValue_eq_ok {value : Str} : headerValue value = .ok () ↔ IsHeaderValue value := by
  unfold headerValue
  -- The loop and the grammar ask the same of each byte.
  induction value with
  | nil => exact ⟨fun _ => isHeaderValue_nil, fun _ => rfl⟩
  | cons c rest ih =>
    by_cases hcr : c = byte '\r'
    · subst hcr
      rw [headerValueLoop_cr, isHeaderValue_cr, ih]
    · by_cases hlf : c = byte '\n'
      · subst hlf
        rw [headerValueLoop_lf, isHeaderValue_lf, ih]
      · rw [headerValueLoop_other hcr hlf, isHeaderValue_cons, ih]
        simp [hcr, hlf]

/-! ### Folded values are fields -/

/-- What ends a line with the given content. -/
inductive LineEnd (content : Bytes) : Bytes → Prop
  | lf (hcr : content.getLast? ≠ some (byte '\r')) : LineEnd content [byte '\n']
  | crlf : LineEnd content [byte '\r', byte '\n']

/-- A content without a line feed and its end are a line. -/
theorem LineEnd.isLine {content eol : Bytes} (h : LineEnd content eol) (hlf : byte '\n' ∉ content) :
    IsLine content (content ++ eol) := by
  cases h with
  | lf hcr => exact .lf hlf hcr
  | crlf => exact .crlf hlf

/-- The content may be shorter in front. -/
theorem LineEnd.of_append {front content eol : Bytes} (h : LineEnd (front ++ content) eol)
    (hcontent : content ≠ []) : LineEnd content eol := by
  cases h with
  | lf hcr =>
    rw [List.getLast?_append_of_ne_nil _ hcontent] at hcr
    exact .lf hcr
  | crlf => exact .crlf

/-- A value stays folded when it is cut before a byte that is no space and no tab. -/
theorem Folded.front {front rest : Bytes} {c : UInt8} (h : Folded (front ++ c :: rest))
    (hspace : c ≠ byte ' ') (htab : c ≠ byte '\t') : Folded front := by
  rintro before after rfl
  have hfold := h before (after ++ c :: rest) (by simp)
  cases after with
  | nil =>
    rcases isContinuation_cons.mp hfold with h | h
    · exact absurd h hspace
    · exact absurd h htab
  | cons d after => exact hfold

/-- The last occurrence of a byte. -/
theorem exists_last_split {c : UInt8} {l : Bytes} (h : c ∈ l) :
    ∃ front back, l = front ++ c :: back ∧ c ∉ back := by
  induction l with
  | nil => exact nomatch h
  | cons d l ih =>
    by_cases hl : c ∈ l
    · obtain ⟨front, back, rfl, hback⟩ := ih hl
      exact ⟨d :: front, back, rfl, hback⟩
    · rcases List.mem_cons.mp h with rfl | h
      · exact ⟨[], l, rfl, hl⟩
      · exact absurd h hl

/-- **A folded value behind its name is one field.**  By induction on the value, along its
    lines from the last to the first: the field of the lines before, continued. -/
theorem IsField.folded {name value eol : Bytes} (hname : IsName name) (hfold : Folded value)
    (heol : LineEnd (name ++ byte ':' :: value) eol) :
    IsField name value (name ++ byte ':' :: (value ++ eol)) := by
  induction hn : value.length using Nat.strongRecOn generalizing value eol with
  | _ n ih =>
    subst hn
    have hassoc : name ++ byte ':' :: (value ++ eol) = (name ++ byte ':' :: value) ++ eol := by simp
    by_cases hlf : byte '\n' ∈ value
    -- The last line of the value continues the field that the lines before it make.
    · obtain ⟨front, line, rfl, hline⟩ := exists_last_split hlf
      have hcontinues : isContinuation line = true := hfold front line rfl
      have hnonempty : line ≠ [] := by
        rintro rfl
        exact absurd hcontinues (by decide)
      have hlast : IsLine line (line ++ eol) := by
        have hwhole : LineEnd ((name ++ byte ':' :: (front ++ [byte '\n'])) ++ line) eol := by
          simpa using heol
        exact (hwhole.of_append hnonempty).isLine hline
      have hfront : Folded front := hfold.front (by decide) (by decide)
      -- Whether the line before ends with LF or CRLF, its own end is no part of the value.
      by_cases hcr : front.getLast? = some (byte '\r')
      · obtain ⟨init, rfl⟩ : ∃ init, front = init ++ [byte '\r'] :=
          ⟨_, (List.dropLast_append_getLast? _ hcr).symm⟩
        have hinit : Folded init := hfront.front (by decide) (by decide)
        have hbefore := ih init.length (by simp) hinit .crlf rfl
        have hfield := hbefore.fold rfl hlast hcontinues
        simpa using hfield
      · have hend : LineEnd (name ++ byte ':' :: front) [byte '\n'] := by
          refine .lf ?_
          cases front with
          | nil => simp +decide
          | cons c front =>
            rw [List.append_cons, List.getLast?_append_of_ne_nil _ (by simp)]
            exact hcr
        have hbefore := ih front.length (by simp) hfront hend rfl
        have hfield := hbefore.fold rfl hlast hcontinues
        simpa using hfield
    · rw [hassoc]
      refine .line hname (heol.isLine ?_)
      rw [List.mem_append, List.mem_cons, not_or, not_or]
      refine ⟨fun h => ?_, by decide, hlf⟩
      exact absurd (List.all_eq_true.mp hname.2 _ h) (by decide)

/-! ### Headers of modifications -/

/-- The header that a modification adds, inserts or changes. -/
def headerOf : Modification → Option (Str × Str)
  | .addHeader name value | .insertHeader _ name value | .changeHeader _ name value
  | .insertRawHeader _ name value => some (name, value)
  | _ => none

/-- The accepted names are those of `IsName`. -/
theorem headerName_eq_ok {name : Str} : headerName name = .ok () ↔ IsName name := by
  unfold headerName IsName
  cases name with
  | nil => simp
  | cons c name => simp

/-- A header that can be encoded has a valid name and an accepted value. -/
theorem frames_header {leadingSpace : Bool} {m : Modification} {fs : List Frame} {name value : Str}
    (hframes : m.frames leadingSpace = .ok fs) (hheader : headerOf m = some (name, value)) :
    IsName name ∧ IsHeaderValue value := by
  have hchecks : ∀ {name' value' : Str} {rest : Result (List Frame)},
      (headerName name' >>= fun _ => headerValue value' >>= fun _ => rest) = .ok fs →
        some (name', value') = some (name, value) → IsName name ∧ IsHeaderValue value := by
    intro name' value' rest h heq
    obtain ⟨rfl, rfl⟩ := Prod.mk.inj (Option.some.inj heq)
    obtain ⟨_, hname, h⟩ := Result.bind_ok_iff.mp h
    obtain ⟨_, hvalue, -⟩ := Result.bind_ok_iff.mp h
    exact ⟨headerName_eq_ok.mp hname, headerValue_eq_ok.mp hvalue⟩
  cases m with
  | addHeader name' value' => exact hchecks hframes hheader
  | insertHeader index name' value' => exact hchecks hframes hheader
  | changeHeader occurrence name' value' => exact hchecks hframes hheader
  | insertRawHeader index name' value' => exact hchecks hframes hheader
  | replaceBody body => exact nomatch hheader
  | changeFrom address parameters => exact nomatch hheader
  | addRecipient address parameters => exact nomatch hheader
  | deleteRecipient address => exact nomatch hheader
  | quarantine reason => exact nomatch hheader

/-- A field as it is written: name, colon, optional space, value and CRLF. -/
def serialize (name space value : Bytes) : Bytes :=
  name ++ byte ':' :: (space ++ value ++ [byte '\r', byte '\n'])

/-- A space in front leaves a value folded. -/
theorem IsHeaderValue.folded {value space : Bytes} (h : IsHeaderValue value)
    (hspace : space = [] ∨ space = [byte ' ']) : Folded (space ++ value) := by
  rcases hspace with rfl | rfl
  · exact h.lf
  · exact forall_split_cons.mpr ⟨fun h => absurd h (by decide), h.lf⟩

/-- **No header injection.**  The accepted values are those of `IsHeaderValue`; and a header that
    can be encoded, written between any fields of a header block, is read as exactly one field at
    its place, so that the fields around it and the body are read as if it were not there. -/
theorem no_header_injection :
    (∀ text, headerValue text = .ok () ↔ IsHeaderValue text) ∧
    ∀ (leadingSpace : Bool) (m : Modification) (fs : List Frame) (name value space : Bytes)
      (before after : List (Bytes × Bytes)) (front back : List Bytes) (eol body raw : Bytes)
      (limits : Limits), m.frames leadingSpace = .ok fs → headerOf m = some (name, value) →
      (space = [] ∨ space = [byte ' ']) →
      List.Forall₂ (fun field text => IsField field.1 field.2 text) before front →
      List.Forall₂ (fun field text => IsField field.1 field.2 text) after back →
      IsLine [] eol →
      raw = front.flatten ++ serialize name space value ++ back.flatten ++ eol ++ body →
      (before.length + 1 + after.length ≤ limits.headers →
        ∃ places bodyStart,
          readFields limits raw (raw.length + 1) 0 [] = .ok (places, bodyStart)) ∧
      ∀ places bodyStart, readFields limits raw (raw.length + 1) 0 [] = .ok (places, bodyStart) →
        places.map (RawField.field raw) = before ++ (name, space ++ value) :: after ∧
          raw.drop bodyStart = body := by
  refine ⟨fun text => headerValue_eq_ok, ?_⟩
  intro leadingSpace m fs name value space before after front back eol body raw limits hframes
    hheader hspace hfront hback heol hraw
  obtain ⟨hname, hvalue⟩ := frames_header hframes hheader
  have hfield : IsField name (space ++ value) (serialize name space value) :=
    IsField.folded hname (hvalue.folded hspace) .crlf
  have hmessage : IsMessage raw (before ++ (name, space ++ value) :: after) body := by
    refine ⟨front ++ serialize name space value :: back, eol,
      List.rel_append hfront (.cons hfield hback), heol, ?_⟩
    rw [hraw, List.flatten_append, List.flatten_cons]
    simp only [List.append_assoc]
  refine ⟨fun hroom => ?_, fun places bodyStart hread => ?_⟩
  · have hlimit : (before ++ (name, space ++ value) :: after).length ≤ limits.headers := by
      rw [List.length_append, List.length_cons]
      omega
    obtain ⟨places, bodyStart, hread, -⟩ := readFields_complete hmessage hlimit
    exact ⟨places, bodyStart, hread⟩
  · exact (readFields_sound hread).unique hmessage

/-- Two fields with a folded header between them, and a body. -/
def sampleBlock : Bytes := "A: 1\r\nX: a\r\n b\r\nB: 2\r\n\r\nbody"

/-- A folded header between two fields is read. -/
theorem no_header_injection_at_fold :
    ∃ places bodyStart,
      readFields {} sampleBlock (sampleBlock.length + 1) 0 [] = .ok (places, bodyStart) :=
  have hframes : Modification.frames true (.addHeader "X" "a\r\n b") =
      .ok [⟨byte 'h', ascii "X" ++ [0] ++ ascii " a\r\n b" ++ [0]⟩] := by decide +kernel
  have hfront : List.Forall₂ (fun field text => IsField field.1 field.2 text)
      [(ascii "A", ascii " 1")] [ascii "A: 1\r\n"] :=
    .cons (.line ⟨by decide, by decide⟩ (.crlf (by decide))) .nil
  have hback : List.Forall₂ (fun field text => IsField field.1 field.2 text)
      [(ascii "B", ascii " 2")] [ascii "B: 2\r\n"] :=
    .cons (.line ⟨by decide, by decide⟩ (.crlf (by decide))) .nil
  have hraw : sampleBlock =
      [ascii "A: 1\r\n"].flatten ++ serialize "X" [byte ' '] "a\r\n b" ++
        [ascii "B: 2\r\n"].flatten ++ ascii "\r\n" ++ ascii "body" := by decide +kernel
  (no_header_injection.2 _ _ _ _ _ _ _ _ _ _ _ _ _ {} hframes rfl (.inr rfl) hfront hback
    (.crlf (by decide)) hraw).1 (by decide)

end Hooks

end MtaHooks
