import MtaHooks.Hooks.EncodedLimit
import MtaHooks.Hooks.RawFields
import MtaHooks.Hooks.RawMatching

namespace MtaHooks

open ListEdits

/-!
# Raw replacement is exact

The edits of a raw replacement are put together from what the parser reads, what the matcher
keeps and what the MTA does with the positions it is given.  A position is a word of 32 bits on
the wire, which bounds the number of headers.

* `Translated.raw_set` — a response that sets the raw message has exactly its edits;
* `Translated.no_headerEdits` — other operations on the message are ignored beside it;
* `raw_exact` — below `2 ^ 32` headers the MTA is left with the fields and the body of the
  replacement.
-/

namespace Hooks

open Edits

/-! ### Operations beside a raw replacement -/

/-- A path to a header is a path into the message. -/
theorem inMessage_of_arrayIndex {path : Str} {r : ℕ × Str}
    (h : arrayIndex path "/message/headers" = some r) : inMessage path = true := by
  obtain ⟨rest, rfl⟩ := startsWith_of_arrayIndex h
  have hprefix : startsWith "/message/" (ascii "/message/headers" ++ byte '/' :: rest) = true :=
    startsWith_iff.mpr ⟨ascii "headers" ++ byte '/' :: rest, rfl⟩
  rw [inMessage, hprefix, Bool.or_true]

/-- The edits of no header. -/
def NoHeaderEdits (session : Session) (e : Edits) : Prop :=
  e.headerChanges = [] ∧ e.headers = .ofLength session.message.headers.length

/-- With a raw message a `set` edits no header. -/
theorem applySet_noHeaderEdits {b64 : Base64} {session : Session} {op : SetOp} {a a' : Answered}
    (h : applySet b64 session true a op = .ok a') (ha : NoHeaderEdits session a.edits) :
    NoHeaderEdits session a'.edits := by
  cases setStep_of_ok h with
  | edit hpath hseen hset =>
    have hnone : Scanner.headerSet op = none := by
      unfold Scanner.headerSet
      cases hindex : arrayIndex op.path "/message/headers" with
      | none => rfl
      | some r => exact absurd (inMessage_of_arrayIndex hindex) hseen
    obtain ⟨hheaders, -, hchanges, -⟩ := Edits.set_ok hset
    rw [hnone] at hchanges
    exact ⟨by rw [hchanges, ha.1]; rfl, by rw [hheaders, ha.2]⟩
  | _ => exact ha

/-- With a raw message an `add` edits no header. -/
theorem applyAdd_noHeaderEdits {session : Session} {op : AddOp} {e e' : Edits}
    (h : applyAdd session true e op = .ok e') (he : NoHeaderEdits session e) :
    NoHeaderEdits session e' := by
  unfold applyAdd at h
  rcases Result.ite_ok h with ⟨-, h⟩ | ⟨hother, h⟩
  · obtain rfl := Except.ok.inj h
    exact he
  · have hpath : op.path ≠ ascii "/message/headers" := by
      intro hpath
      rw [hpath] at hother
      exact hother (by decide)
    obtain ⟨hheaders, -, hchanges, -⟩ := Edits.add_ok h
    unfold Adds at hheaders
    rw [if_neg hpath] at hheaders
    exact ⟨hchanges.trans he.1, hheaders.trans he.2⟩

/-- With a raw message a `delete` edits no header. -/
theorem applyDelete_noHeaderEdits {session : Session} {op : DeleteOp} {e e' : Edits}
    (h : applyDelete true e op = .ok e') (he : NoHeaderEdits session e) :
    NoHeaderEdits session e' := by
  unfold applyDelete at h
  rcases Result.ite_ok h with ⟨-, h⟩ | ⟨hother, h⟩
  · obtain rfl := Except.ok.inj h
    exact he
  · have hindex : Edits.deleteIndex op.path "/message/headers" = none := by
      cases hindex : Edits.deleteIndex op.path "/message/headers" with
      | none => rfl
      | some index =>
        rw [inMessage_of_arrayIndex (arrayIndex_of_deleteIndex hindex)] at hother
        exact absurd rfl hother
    obtain ⟨hheaders, -, hchanges⟩ := Edits.delete_ok h
    unfold Deletes at hheaders
    rw [hindex] at hheaders
    exact ⟨hchanges.trans he.1, hheaders.trans he.2⟩

section Translated

variable {b64 : Base64} {session : Session} {stage : Stage} {ops : Operations} {a : Answered}
  {added edits : Edits} {modifications extra : List Modification} {d : Decision}

/-- **Beside a raw replacement** a response edits no header. -/
theorem Translated.no_headerEdits
    (h : Translated b64 session stage ops a added edits modifications extra d)
    (hraw : ops.hasRaw = true) : NoHeaderEdits session edits := by
  have hsets := h.sets
  have hadds := h.adds
  have hdeletes := h.deletes
  rw [hraw] at hsets hadds hdeletes
  have hanswered : NoHeaderEdits session a.edits :=
    Result.foldlM_invariant (P := fun a => NoHeaderEdits session a.edits) hsets ⟨rfl, rfl⟩
      fun _ _ _ _ ha hop => applySet_noHeaderEdits hop ha
  have hadded : NoHeaderEdits session added :=
    Result.foldlM_invariant hadds hanswered fun _ _ _ _ he hop => applyAdd_noHeaderEdits hop he
  exact Result.foldlM_invariant hdeletes hadded
    fun _ _ _ _ he hop => applyDelete_noHeaderEdits hop he

/-- Without header edits there is no change and no insertion. -/
theorem Resolved.of_noHeaderEdits {changed inserted sender deletes adds : List Modification}
    (h : Resolved session edits changed inserted sender deletes adds)
    (hedits : NoHeaderEdits session edits) : changed = [] ∧ inserted = [] := by
  obtain ⟨hchanges, hheaders⟩ := hedits
  have hchanged := h.changed
  have hinserted := h.inserted
  unfold Edits.headerEdits at hchanged
  rw [hchanges, hheaders] at hchanged
  rw [hheaders] at hinserted
  refine ⟨(Except.ok.inj hchanged).symm, ?_⟩
  have hnodup : ((SlotList.ofLength (β := Header) session.message.headers.length).slots.zipIdx.map
      Prod.fst).Nodup := by
    rw [List.zipIdx_map_fst]
    exact SlotList.Wf.nodup (.ofLength _)
  rw [inserts_ok hnodup hinserted, List.map_eq_nil_iff, List.filter_eq_nil_iff]
  intro z hz
  have hslot : z.1 ∈ (SlotList.ofLength (β := Header) session.message.headers.length).slots := by
    rw [← List.zipIdx_map_fst 0 (SlotList.ofLength _).slots]
    exact List.mem_map_of_mem hz
  obtain ⟨i, -, hi⟩ := List.mem_map.mp hslot
  rw [← hi]
  exact nofun

/-! ### The raw replacement of a response -/

/-- Once a replacement is set, it stays. -/
theorem raw_kept {hasRaw : Bool} {sets : List SetOp} {start : Answered} {ms : List Modification}
    (h : sets.foldlM (applySet b64 session hasRaw) start = .ok a) (hstart : start.raw = some ms) :
    a.raw = some ms := by
  refine Result.foldlM_invariant (P := fun a => a.raw = some ms) h hstart
    fun a op _ a' ha hop => ?_
  cases setStep_of_ok hop with
  | raw _ hfresh => exact nomatch ha.symm.trans hfresh
  | _ => exact ha

/-- A raw operation sets the replacement. -/
theorem applySet_raw {hasRaw : Bool} {op : SetOp} {a a' : Answered}
    (hpath : op.path = ascii "/rawMessage") (h : applySet b64 session hasRaw a op = .ok a') :
    ∃ ms, rawReplacement b64 op.value session = .ok ms ∧ a'.raw = some ms := by
  have hplain : ∀ path ∈ [ascii "/action", ascii "/response", ascii "/response/code",
      ascii "/response/enhancedCode", ascii "/response/message"],
      path ≠ ascii "/rawMessage" := by decide +kernel
  cases setStep_of_ok h with
  | raw _ _ hraw => exact ⟨_, hraw, rfl⟩
  | ignored hother => exact absurd hpath hother
  | action haction => exact absurd hpath (hplain _ (by simp [haction]))
  | response hresponse => exact absurd hpath (hplain _ (by simp [hresponse]))
  | part hpart =>
    have hmem := isResponsePart_iff.mp hpart
    exact absurd hpath (hplain _ (List.mem_cons_of_mem _ (List.mem_cons_of_mem _ hmem)))
  | edit hother => exact absurd hpath hother

/-- The loop over `set` collects the replacement of its raw operation. -/
theorem raw_set {hasRaw : Bool} {sets : List SetOp} {start : Answered} {op : SetOp}
    (h : sets.foldlM (applySet b64 session hasRaw) start = .ok a) (hop : op ∈ sets)
    (hpath : op.path = ascii "/rawMessage") :
    ∃ ms, rawReplacement b64 op.value session = .ok ms ∧ a.raw = some ms := by
  induction sets generalizing start with
  | nil => exact nomatch hop
  | cons op' sets ih =>
    rw [List.foldlM_cons] at h
    obtain ⟨a₁, hstep, hrest⟩ := Result.bind_ok_iff.mp h
    rcases List.mem_cons.mp hop with rfl | hop
    · obtain ⟨ms, hms, hset⟩ := applySet_raw hpath hstep
      exact ⟨ms, hms, raw_kept hrest hset⟩
    · exact ih hrest hop

/-- The raw message is what the scanner encoded. -/
theorem decodeRaw_encode {limits : Limits} {raw raw' : Bytes}
    (h : decodeRaw b64 limits (.string (b64.encode raw)) = .ok raw') : raw' = raw := by
  obtain ⟨encoded, hencoded, h⟩ := Result.bind_ok_iff.mp h
  obtain ⟨_, -, h⟩ := Result.bind_ok_iff.mp h
  obtain ⟨decoded, hdecoded, h⟩ := Result.bind_ok_iff.mp h
  obtain ⟨_, -, h⟩ := Result.bind_ok_iff.mp h
  obtain rfl := Except.ok.inj h
  obtain rfl : b64.encode raw = encoded := Option.some.inj (okOr_eq_ok.mp hencoded)
  have heq := okOr_eq_ok.mp hdecoded
  rw [b64.decode_encode] at heq
  exact (Option.some.inj heq).symm

/-- A raw header that can be encoded has a visible form. -/
theorem visibleValue_of_frames {ls : Bool} {index : UInt32} {name value : Str} {fs : List Frame}
    (h : (Modification.insertRawHeader index name value).frames ls = .ok fs) :
    (visibleValue ls value).isSome := by
  obtain ⟨_, -, h⟩ := Result.bind_ok_iff.mp h
  obtain ⟨_, -, h⟩ := Result.bind_ok_iff.mp h
  obtain ⟨wire, hwire, -⟩ := Result.bind_ok_iff.mp h
  unfold visibleValue
  rcases Result.ite_ok hwire with ⟨hls, -⟩ | ⟨-, hwire⟩
  · rw [hls]
    rfl
  · split
    · rfl
    · rw [okOr_eq_ok.mp hwire]
      rfl

/-- Every field of an encoded replacement has a visible form. -/
theorem visible_of_encoded {ls : Bool} {original fields : List (Bytes × Bytes)}
    {ms : List Modification} (h : fieldEdits ls original fields = .ok ms)
    (hframes : ∀ m ∈ ms, ∃ fs, m.frames ls = .ok fs) {field : Bytes × Bytes}
    (hfield : field ∈ fields) : visibleField ls field = some (shownField ls field) := by
  obtain ⟨m, placed, kept, rfl, hm, rfl⟩ := fieldEdits_ok h
  obtain ⟨x, hx, rfl⟩ := List.mem_map.mp hfield
  have hsome : (visibleField ls x.field).isSome := by
    cases hnew : x.isNew with
    | false => exact hm.visible hx hnew
    | true =>
      obtain ⟨i, hi⟩ := List.mem_iff_getElem?.mp hx
      have hplace : (x, i) ∈ placed.zipIdx := List.mem_zipIdx_iff_getElem?.mpr hi
      have hmem : insertionOf (x, i) ∈ insertionsOf placed :=
        List.mem_map_of_mem (List.mem_filter.mpr ⟨hplace, hnew⟩)
      obtain ⟨fs, hfs⟩ := hframes _ (List.mem_append_right _ hmem)
      rw [visibleField, Option.isSome_map]
      exact visibleValue_of_frames hfs
  obtain ⟨v, hv⟩ := Option.isSome_iff_exists.mp hsome
  rw [hv, visibleField_eq_some hv]

end Translated

/-- **Raw replacement is exact**, as long as the headers of a message can be counted in 32
    bits. -/
theorem raw_exact {b64 : Base64} {value : Json} {session : Session} {stage : Stage}
    {ops : Operations} {raw : Bytes} {d : Decision} (hreach : session.Reachable)
    (hlimit : session.limits.headers < 2 ^ 32) (hops : Operations.fromValue value = some ops)
    (hset : (⟨"/rawMessage", .string (b64.encode raw)⟩ : SetOp) ∈ ops.sets)
    (h : translate b64 value session stage = .ok d) :
    ∃ fields body, IsMessage raw fields body ∧
      fields.map (visibleField session.leadingSpace) =
        (d.modifications.foldl (Mta.headers session.leadingSpace)
          session.message.headers).map some ∧
      d.modifications.foldl Mta.body session.message.body = body := by
  obtain ⟨ops', a, added, edits, modifications, extra, hops', ht⟩ := translate_ok h
  obtain rfl := Option.some.inj (hops.symm.trans hops')
  obtain ⟨ms, hms, hraw⟩ := raw_set ht.sets hset rfl
  have hhasRaw : ops.hasRaw = true := List.any_eq_true.mpr ⟨_, hset, decide_eq_true rfl⟩
  obtain ⟨raw', places, bodyStart, edited, hdecode, hread, hedited, rfl⟩ := rawReplacement_ok hms
  obtain rfl := decodeRaw_encode hdecode
  have hframes : ∀ m ∈ edited, ∃ fs, m.frames session.leadingSpace = .ok fs := by
    intro m hm
    refine ht.encoded m (List.mem_append_right _ ?_)
    rw [hraw]
    exact List.mem_append_left _ hm
  have hfew : session.message.headers.length < 2 ^ 32 :=
    Nat.lt_of_le_of_lt hreach.headers_le hlimit
  have hcount : (places.map (RawField.field raw')).length ≤ 2 ^ 32 := by
    rw [List.length_map]
    have := readFields_limit (Nat.zero_le _) hread
    omega
  refine ⟨_, _, readFields_sound hread, ?_, ?_⟩
  · obtain ⟨changed, inserted, sender, deletes, adds, hr, hfold⟩ :=
      ht.foldl_headers session.leadingSpace session.message.headers
    obtain ⟨rfl, rfl⟩ := hr.of_noHeaderEdits (ht.no_headerEdits hhasRaw)
    have hbody : ∀ m ∈ (if raw'.drop bodyStart ≠ session.message.body then
        [Modification.replaceBody (raw'.drop bodyStart)] else []), Mta.part m ≠ .headers := by
      intro m hm
      split at hm
      · obtain rfl := List.mem_singleton.mp hm
        exact nofun
      · exact nomatch hm
    rw [hfold, hraw, Option.getD_some, List.foldl_append, Mta.foldl_headers_of_part hbody]
    show _ = (edited.foldl (Mta.headers session.leadingSpace) session.message.headers).map some
    rw [foldl_fieldEdits hedited hfew hcount, List.map_map (l := List.map _ _)]
    exact List.map_congr_left fun field hfield => visible_of_encoded hedited hframes hfield
  · rw [ht.foldl_body, hraw, Option.getD_some, List.foldl_append,
      Mta.foldl_body_of_part (Mta.part_ne (fieldEdits_part hedited) (by decide))]
    by_cases hsame : raw'.drop bodyStart = session.message.body
    · rw [if_neg (by simpa using hsame)]
      exact hsame.symm
    · rw [if_pos hsame]
      rfl

/-- A message with two headers. -/
def sampleMessage : Session := Sample.atEnd ["<b>"] [("A", "1"), ("B", "2")]

/-- A replacement that drops the first header and adds a folded one after the second. -/
def sampleRaw : Bytes := ascii "B: 2\nC: 3\r\n 4\n\r\nbody"

/-- The MTA is left with the raw message of the sample. -/
theorem raw_exact_at_sample :
    ∃ d fields body, translate Sample.base64 (Sample.response
        [Sample.setOp "/rawMessage" (.string (Sample.base64.encode sampleRaw))] [] [])
          sampleMessage .endMessage = .ok d ∧
      IsMessage sampleRaw fields body ∧
      fields.map (visibleField sampleMessage.leadingSpace) =
        (d.modifications.foldl (Mta.headers sampleMessage.leadingSpace)
          sampleMessage.message.headers).map some ∧
      d.modifications.foldl Mta.body sampleMessage.message.body = body := by
  have htranslate : translate Sample.base64 (Sample.response
      [Sample.setOp "/rawMessage" (.string (Sample.base64.encode sampleRaw))] [] [])
      sampleMessage .endMessage = .ok { modifications :=
        [.changeHeader 1 "A" "", .insertRawHeader 1 "C" " 3\r\n 4", .replaceBody "body"] } := by
    decide +kernel
  have hset : (⟨"/rawMessage", .string (Sample.base64.encode sampleRaw)⟩ : SetOp) ∈
      (Operations.mk (some [⟨"/rawMessage", .string (Sample.base64.encode sampleRaw)⟩]) (some [])
        (some [])).sets := List.mem_cons_self
  obtain ⟨fields, body, h⟩ := raw_exact (Sample.received_reachable _ _) (by decide +kernel) rfl
    hset htranslate
  exact ⟨_, fields, body, htranslate, h⟩

/-! ### Beyond 32 bits -/

/-- Without original headers every field is inserted. -/
theorem foldlM_matchField_nil {ls : Bool} {fields : List (Bytes × Bytes)}
    (htext : ∀ f ∈ fields, isUtf8 f.1 = true ∧ isUtf8 f.2 = true) (m : Matching) (k : ℕ) :
    (fields.zipIdx k).foldlM (matchField ls []) m = .ok { m with
      inserted := m.inserted ++
        (fields.zipIdx k).map fun x => .insertRawHeader (UInt32.ofNat x.2) x.1.1 x.1.2 } := by
  induction fields generalizing m k with
  | nil => simp; rfl
  | cons f fields ih =>
    obtain ⟨hname, hvalue⟩ := htext f List.mem_cons_self
    have hnone : matched ls [] m.cursor f = none := by
      unfold matched
      cases visibleValue ls f.2 <;> rfl
    have hstep : matchField ls [] m (f, k) = .ok { m with
        inserted := m.inserted ++ [.insertRawHeader (UInt32.ofNat k) f.1 f.2] } := by
      unfold matchField text
      simp only [hnone, hname, hvalue, if_true]
      rfl
    rw [List.zipIdx_cons, List.foldlM_cons, hstep]
    show (fields.zipIdx (k + 1)).foldlM _ _ = _
    rw [ih fun f hf => htext f (List.mem_cons_of_mem _ hf)]
    simp

/-- `n` fields of one name and a last field of another. -/
def manyFields (n : ℕ) : List (Bytes × Bytes) :=
  List.replicate n (ascii "X", ascii " a") ++ [(ascii "Y", ascii " a")]

/-- The message of these fields, without body. -/
def manyRaw (n : ℕ) : Bytes :=
  (List.replicate n (ascii "X: a\n") ++ [ascii "Y: a\n"]).flatten ++ ascii "\n" ++ []

/-- The sample with many fields is a message. -/
theorem isMessage_manyRaw (n : ℕ) : IsMessage (manyRaw n) (manyFields n) [] := by
  refine ⟨_, _, ?_, .lf (by decide) (by decide), rfl⟩
  refine List.rel_append ?_ (.cons ?_ .nil)
  · induction n with
    | zero => exact .nil
    | succ n ih =>
      refine .cons ?_ ih
      exact .line (by unfold IsName; decide) (.lf (by decide) (by decide))
  · exact .line (by unfold IsName; decide) (.lf (by decide) (by decide))

/-- Its length. -/
theorem length_manyRaw (n : ℕ) : (manyRaw n).length = 5 * n + 6 := by
  simp only [manyRaw, List.flatten_append, List.length_append, List.length_flatten,
    List.map_replicate, List.sum_replicate]
  show n * 5 + 5 + 1 + 0 = _
  omega

/-- Limits beyond the 32 bits of positions and occurrences. -/
def wideLimits : Limits := { messageBytes := 2 ^ 40, headers := 2 ^ 33, modifications := 2 ^ 33 }

/-- A message without headers at its end, under these limits. -/
def sampleWide : Session :=
  Machine.after Session.call (.new wideLimits [.endMessage] supportedActions)
    ([Sample.offer, Sample.connect, Sample.mail, Sample.rcpt "<b>", Sample.data, Sample.endHeaders,
      Sample.endMessage].map .receive)

/-- The response that replaces the message by the fields. -/
def manyResponse (n : ℕ) : Json :=
  Sample.response [Sample.setOp "/rawMessage" (.string (Sample.base64.encode (manyRaw n)))] [] []

/-- Its operations. -/
def manyOps (n : ℕ) : Operations :=
  ⟨some [⟨"/rawMessage", .string (Sample.base64.encode (manyRaw n))⟩], some [], some []⟩

/-- The insertions of the fields. -/
def manyInserts (n : ℕ) : List Modification :=
  (manyFields n).zipIdx.map fun x => .insertRawHeader (UInt32.ofNat x.2) x.1.1 x.1.2

/-- Its fields are of two kinds. -/
theorem mem_manyFields {n : ℕ} {f : Bytes × Bytes} (h : f ∈ manyFields n) :
    f = (ascii "X", ascii " a") ∨ f = (ascii "Y", ascii " a") := by
  rcases List.mem_append.mp h with h | h
  · exact .inl (List.eq_of_mem_replicate h)
  · exact .inr (List.mem_singleton.mp h)

/-- Each of them is inserted. -/
theorem fieldEdits_manyFields (n : ℕ) :
    fieldEdits false [] (manyFields n) = .ok (manyInserts n) := by
  have htext : ∀ f ∈ manyFields n, isUtf8 f.1 = true ∧ isUtf8 f.2 = true := by
    intro f hf
    rcases mem_manyFields hf with rfl | rfl <;> decide +kernel
  unfold fieldEdits
  rw [foldlM_matchField_nil htext]
  rfl

/-- The replacement inserts each of them, at positions that wrap. -/
theorem rawReplacement_manyRaw {n : ℕ} (hn : n ≤ 2 ^ 32) :
    rawReplacement Sample.base64 (.string (Sample.base64.encode (manyRaw n))) sampleWide =
      .ok (manyInserts n) := by
  have hlimits : sampleWide.limits = wideLimits := by decide +kernel
  have hspace : sampleWide.leadingSpace = false := by decide +kernel
  have hheaders : sampleWide.message.headers = [] := by decide +kernel
  have hbody : sampleWide.message.body = [] := by decide +kernel
  have hlength := length_manyRaw n
  have hraw : (manyRaw n).length ≤ wideLimits.messageBytes := by
    show _ ≤ 2 ^ 40
    omega
  have hdecode : decodeRaw Sample.base64 wideLimits
      (.string (Sample.base64.encode (manyRaw n))) = .ok (manyRaw n) :=
    decodeRaw_encode_eq_ok standard_base64.length_encode (by decide) hraw
  have hfields : (manyFields n).length = n + 1 := by
    rw [manyFields, List.length_append, List.length_replicate]
    rfl
  have hroom : (manyFields n).length ≤ wideLimits.headers := by
    rw [hfields]
    show _ ≤ 2 ^ 33
    omega
  obtain ⟨places, bodyStart, hread, hplaces, hdrop⟩ :=
    readFields_complete (isMessage_manyRaw n) hroom
  unfold rawReplacement
  rw [hlimits, hspace, hheaders, hbody]
  refine Result.bind_ok_iff.mpr ⟨_, hdecode, Result.bind_ok_iff.mpr ⟨_, hread,
    Result.bind_ok_iff.mpr ⟨manyInserts n, by rw [hplaces, fieldEdits_manyFields], ?_⟩⟩⟩
  rw [hdrop]
  refine Result.bind_ok_iff.mpr ⟨(), rejectIf_eq_ok.mpr ?_, ?_⟩
  · show ¬ 2 ^ 33 < (manyInserts n ++ []).length
    rw [List.append_nil, manyInserts, List.length_map, List.length_zipIdx, hfields]
    omega
  · exact congrArg Except.ok (List.append_nil _)

/-- The whole decision inserts each of them. -/
theorem translate_manyResponse {n : ℕ} (hn : n ≤ 2 ^ 32) :
    translate Sample.base64 (manyResponse n) sampleWide .endMessage =
      .ok { modifications := manyInserts n } := by
  have hspace : sampleWide.leadingSpace = false := by decide +kernel
  have hframes : ∀ m ∈ manyInserts n, ∃ fs, m.frames false = .ok fs := by
    intro m hm
    obtain ⟨x, hx, rfl⟩ := List.mem_map.mp hm
    have hfield : x.1 ∈ manyFields n := by
      rw [← List.zipIdx_map_fst 0 (manyFields n)]
      exact List.mem_map_of_mem hx
    rcases mem_manyFields hfield with h | h <;> rw [h] <;>
      exact ⟨_, Result.bind_ok_iff.mpr ⟨(), by decide +kernel,
        Result.bind_ok_iff.mpr ⟨(), by decide +kernel, rfl⟩⟩⟩
  obtain ⟨fs, hfs⟩ := Result.mapM_ok_of_forall hframes
  have hset : applySet Sample.base64 sampleWide true { edits := Edits.new sampleWide }
      ⟨"/rawMessage", .string (Sample.base64.encode (manyRaw n))⟩ =
        .ok { edits := Edits.new sampleWide, raw := some (manyInserts n) } := by
    unfold applySet
    rw [if_pos rfl, rawReplacement_manyRaw hn]
    rfl
  have hraw : (manyOps n).hasRaw = true := by
    show (decide (ascii "/rawMessage" = ascii "/rawMessage") || false) = true
    decide
  have hsets : (manyOps n).sets.foldlM (applySet Sample.base64 sampleWide (manyOps n).hasRaw)
      { edits := Edits.new sampleWide } =
        .ok { edits := Edits.new sampleWide, raw := some (manyInserts n) } := by
    rw [hraw]
    exact Result.bind_ok_iff.mpr ⟨_, hset, rfl⟩
  refine Result.bind_ok_iff.mpr ⟨manyOps n, rfl, ?_⟩
  refine Result.bind_ok_iff.mpr ⟨(), rejectIf_eq_ok.mpr ?_, ?_⟩
  · show ¬ sampleWide.limits.modifications < 1 + 0 + 0
    decide +kernel
  refine Result.bind_ok_iff.mpr ⟨_, hsets, Result.bind_ok_iff.mpr ⟨Edits.new sampleWide, rfl,
    Result.bind_ok_iff.mpr ⟨Edits.new sampleWide, rfl, ?_⟩⟩⟩
  refine Result.bind_ok_iff.mpr ⟨(), rejectIf_eq_ok.mpr (fun h => h.1 rfl), ?_⟩
  refine Result.bind_ok_iff.mpr ⟨[], by decide +kernel, ?_⟩
  refine Result.bind_ok_iff.mpr ⟨fs, by rw [hspace]; exact hfs, ?_⟩
  have hverdict : verdict "accept" .null .endMessage = .ok (.continue, []) := by decide +kernel
  refine Result.bind_ok_iff.mpr ⟨(.continue, []), hverdict, ?_⟩
  exact congrArg (fun ms => Except.ok (Decision.mk .continue ms)) (List.append_nil _)

/-- The position `2 ^ 32` wraps around to the front. -/
theorem foldl_manyInserts {n : ℕ} (hn : n = 2 ^ 32) :
    (manyInserts n).foldl (Mta.headers false) [] =
      (ascii "Y", ascii "a") :: List.replicate n (ascii "X", ascii "a") := by
  set first : List Placed := List.replicate n ⟨(ascii "X", ascii " a"), true⟩
  have hall : ∀ x ∈ first.zipIdx, x.1.isNew = true := by
    intro x hx
    have hmem : x.1 ∈ first := by
      rw [← List.zipIdx_map_fst 0 first]
      exact List.mem_map_of_mem hx
    rw [List.eq_of_mem_replicate hmem]
  have hsplit : manyInserts n = insertionsOf first ++
      [.insertRawHeader (UInt32.ofNat n) (ascii "Y") (ascii " a")] := by
    have hmap : manyFields n = first.map Placed.field ++ [(ascii "Y", ascii " a")] := by
      rw [List.map_replicate]
      rfl
    rw [insertionsOf, List.filter_eq_self.mpr hall, manyInserts, hmap, List.zipIdx_append,
      List.map_append, List.zipIdx_map, List.map_map, List.length_map, List.length_replicate]
    simp [Function.comp_def, insertionOf]
  have hold : first.filter (!·.isNew) = [] := by
    rw [List.filter_eq_nil_iff]
    intro x hx
    rw [List.eq_of_mem_replicate hx]
    decide
  have hlength : first.length ≤ 2 ^ 32 := by rw [List.length_replicate, hn]
  have hfirst := @foldl_insertionsOf false first hlength
  rw [hold, List.map_nil, List.map_replicate] at hfirst
  have hwrap : UInt32.ofNat n = 0 := by
    rw [hn]
    rfl
  rw [hsplit, List.foldl_append, hfirst, hwrap]
  rfl

/-- With `2 ^ 32 + 1` fields the last one ends up in front: the fields of the message are not
    what the MTA is left with. -/
theorem sampleWide_wraps :
    sampleWide.Reachable ∧
    (⟨"/rawMessage", .string (Sample.base64.encode (manyRaw (2 ^ 32)))⟩ : SetOp) ∈
      (manyOps (2 ^ 32)).sets ∧
    Operations.fromValue (manyResponse (2 ^ 32)) = some (manyOps (2 ^ 32)) ∧
    translate Sample.base64 (manyResponse (2 ^ 32)) sampleWide .endMessage =
      .ok { modifications := manyInserts (2 ^ 32) } ∧
    ¬ ∃ fields body, IsMessage (manyRaw (2 ^ 32)) fields body ∧
      fields.map (visibleField sampleWide.leadingSpace) =
        ((manyInserts (2 ^ 32)).foldl (Mta.headers sampleWide.leadingSpace)
          sampleWide.message.headers).map some ∧
      (manyInserts (2 ^ 32)).foldl Mta.body sampleWide.message.body = body := by
  obtain ⟨n, hn⟩ : ∃ n, n = 2 ^ 32 := ⟨_, rfl⟩
  rw [← hn]
  refine ⟨⟨_, _, ⟨wideLimits, [.endMessage], supportedActions, [], rfl⟩, rfl⟩, List.mem_cons_self,
    rfl, translate_manyResponse hn.le, ?_⟩
  rintro ⟨fields, body, hmessage, hheaders, -⟩
  have hspace : sampleWide.leadingSpace = false := by decide +kernel
  have hempty : sampleWide.message.headers = [] := by decide +kernel
  obtain ⟨rfl, -⟩ := hmessage.unique (isMessage_manyRaw n)
  rw [hspace, hempty, foldl_manyInserts hn] at hheaders
  obtain ⟨m, rfl⟩ : ∃ m, n = m + 1 := ⟨n - 1, by omega⟩
  have hfirst : some (visibleField false (ascii "X", ascii " a")) =
      some (some (ascii "Y", ascii "a")) := congrArg List.head? hheaders
  exact absurd hfirst (by decide +kernel)

end Hooks

end MtaHooks
