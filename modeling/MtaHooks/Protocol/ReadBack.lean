import MtaHooks.Protocol.Codec
import MtaHooks.Protocol.Modification

namespace MtaHooks

/-!
# Reading modification frames back

`ReadBack.edit` reads the frames of an edit as the MTA does.  Opcode `i` has two readings: the
value of a structured header without its formatting, or the value of a raw header with the
whitespace after the colon.

* `edit_frames` — an encoded modification is read back;
* `frames_faithful` — so modifications with equal frames are equal, up to the two readings of
  an insertion; body chunks are bounded.
-/

/-- The modification gives the exact bytes after the colon. -/
def Modification.isRaw : Modification → Bool
  | .insertRawHeader .. => true
  | _ => false

/-! ### The reader of the MTA -/

namespace ReadBack

/-- The value of a structured header: one leading space of a non-empty value is formatting. -/
def structured (leadingSpace : Bool) (wire : Bytes) : Bytes :=
  if leadingSpace then (stripPrefix " " wire).getD wire else wire

/-- The value of a raw header: the space after the colon is implied. -/
def rawValue (leadingSpace : Bool) (wire : Bytes) : Bytes :=
  if leadingSpace then wire else byte ' ' :: wire

/-- The strings of a payload. -/
def fields (p : Bytes) : Option (List Bytes) := (strings p).toOption

/-- One string. -/
def oneField (p : Bytes) : Option Bytes :=
  match fields p with
  | some [s] => some s
  | _ => none

/-- An address and optional parameters. -/
def envelope (p : Bytes) : Option (Bytes × Option Bytes) :=
  match fields p with
  | some [address] => some (address, none)
  | some [address, parameters] => some (address, some parameters)
  | _ => none

/-- Two strings. -/
def nameValue (p : Bytes) : Option (Bytes × Bytes) :=
  match fields p with
  | some [name, value] => some (name, value)
  | _ => none

/-- An index, then name and value. -/
def indexed (p : Bytes) : Option (UInt32 × Bytes × Bytes) :=
  match p with
  | w :: x :: y :: z :: rest => (nameValue rest).map (fromBeBytes w x y z, ·)
  | _ => none

/-- An edit of one frame. -/
def single (leadingSpace raw : Bool) (f : Frame) : Option Modification :=
  if f.command = byte 'h' then
    (nameValue f.payload).map fun (name, value) => .addHeader name (structured leadingSpace value)
  else if f.command = byte 'i' then
    (indexed f.payload).map fun (index, name, value) =>
      if raw then .insertRawHeader index name (rawValue leadingSpace value)
      else .insertHeader index name (structured leadingSpace value)
  else if f.command = byte 'm' then
    (indexed f.payload).map fun (index, name, value) =>
      .changeHeader index name (structured leadingSpace value)
  else if f.command = byte 'e' then
    (envelope f.payload).map fun (address, parameters) => .changeFrom address parameters
  else if f.command = byte '+' then (oneField f.payload).map (.addRecipient · none)
  else if f.command = byte '2' then
    (nameValue f.payload).map fun (address, parameters) => .addRecipient address (some parameters)
  else if f.command = byte '-' then (oneField f.payload).map .deleteRecipient
  else if f.command = byte 'q' then (oneField f.payload).map .quarantine
  else none

/-- An edit: the chunks of a body, or one frame. -/
def edit (leadingSpace raw : Bool) : List Frame → Option Modification
  | [] => none
  | f :: fs =>
    if f.command = byte 'b' then
      if fs.all (·.command = byte 'b') then
        some (.replaceBody ((f :: fs).flatMap Frame.payload))
      else none
    else if fs = [] then single leadingSpace raw f
    else none

end ReadBack

open ReadBack

/-! ### Values and strings -/

/-- The value of a header is read back. -/
theorem structured_wireValue (ls : Bool) (value : Str) :
    structured ls (Modification.wireValue ls value) = value := by
  unfold structured Modification.wireValue
  cases ls with
  | false => rfl
  | true =>
    cases value with
    | nil => rfl
    | cons c value =>
      -- The encoder puts one space in front, and one is taken off.
      have hstrip : stripPrefix " " (byte ' ' :: c :: value) = some (c :: value) :=
        stripPrefix_eq_some.mpr rfl
      simp [hstrip]

/-- The value of a raw header is read back. -/
theorem rawValue_rawWireValue {ls : Bool} {value wire : Str}
    (h : Modification.rawWireValue ls value = .ok wire) : rawValue ls wire = value := by
  unfold Modification.rawWireValue at h
  unfold rawValue
  rcases Result.ite_ok h with ⟨hls, h⟩ | ⟨hls, h⟩
  · rw [if_pos hls]
    exact (Except.ok.inj h).symm
  · rw [if_neg hls, stripPrefix_eq_some.mp (okOr_eq_ok.mp h)]
    rfl

/-- The strings of a frame are read back. -/
theorem fields_stringFrame {c : UInt8} {values : List Bytes} {f : Frame}
    (h : stringFrame c values = .ok f) : f.command = c ∧ fields f.payload = some values := by
  obtain ⟨hfree, rfl⟩ := stringFrame_eq_ok.mp h
  refine ⟨rfl, ?_⟩
  rw [fields, strings_eq_ok.mpr ⟨rfl, hfree⟩]
  rfl

/-- The name and the value of a frame are read back. -/
theorem nameValue_stringFrame {c : UInt8} {name value : Str} {f : Frame}
    (h : stringFrame c [name, value] = .ok f) :
    f.command = c ∧ nameValue f.payload = some (name, value) := by
  obtain ⟨hc, hfields⟩ := fields_stringFrame h
  refine ⟨hc, ?_⟩
  rw [nameValue, hfields]

/-- An index in front of a field is read back. -/
theorem indexed_append {index : UInt32} {p : Bytes} {field : Bytes × Bytes}
    (h : nameValue p = some field) :
    indexed (toBeBytes index ++ p) = some (index, field) := by
  have hindex := fromBeBytes_toBeBytes (n := index) rfl
  show (nameValue p).map _ = _
  rw [h]
  exact congrArg (fun i => some (i, field)) hindex

/-- A header frame without index. -/
theorem headerFrame_none {c : UInt8} {name value : Str} {fs : List Frame}
    (h : Modification.headerFrame c none name value = .ok fs) :
    ∃ f, fs = [f] ∧ f.command = c ∧ nameValue f.payload = some (name, value) := by
  obtain ⟨f, hf, rfl⟩ := Modification.stringFrame_of_headerFrame h
  exact ⟨_, rfl, rfl, (nameValue_stringFrame hf).2⟩

/-- A header frame with an index. -/
theorem headerFrame_some {c : UInt8} {index : UInt32} {name value : Str} {fs : List Frame}
    (h : Modification.headerFrame c (some index) name value = .ok fs) :
    ∃ f, fs = [f] ∧ f.command = c ∧ indexed f.payload = some (index, name, value) := by
  obtain ⟨f, hf, rfl⟩ := Modification.stringFrame_of_headerFrame h
  exact ⟨_, rfl, rfl, indexed_append (nameValue_stringFrame hf).2⟩

/-- An envelope frame. -/
theorem envelopeFrame_ok {c : UInt8} {address : Str} {parameters : Option Str} {fs : List Frame}
    (h : Modification.envelopeFrame c address parameters = .ok fs) :
    ∃ f, fs = [f] ∧ f.command = c ∧ fields f.payload = some (address :: parameters.toList) := by
  obtain ⟨f, hf, rfl⟩ := Modification.stringFrame_of_envelopeFrame h
  exact ⟨f, rfl, fields_stringFrame hf⟩

/-- A frame of one text. -/
theorem textFrame_ok {c : UInt8} {s : Str} {fs : List Frame}
    (h : (do clean s; let f ← stringFrame c [s]; return [f]) = (.ok fs : Result (List Frame))) :
    ∃ f, fs = [f] ∧ f.command = c ∧ fields f.payload = some [s] := by
  obtain ⟨f, hf, rfl⟩ := Modification.stringFrame_of_text h
  exact ⟨f, rfl, fields_stringFrame hf⟩

/-! ### Chunks -/

/-- The chunks of a body are non-empty, bounded and together the body. -/
theorem chunks_spec {size fuel : ℕ} {body : Bytes} (hsize : 0 < size) (hfuel : body.length ≤ fuel) :
    (Modification.chunks size fuel body).flatten = body ∧
      ∀ c ∈ Modification.chunks size fuel body, c ≠ [] ∧ c.length ≤ size := by
  -- The fuel is the length: every chunk takes at least one byte of the body.
  induction fuel generalizing body with
  | zero =>
    obtain rfl := List.eq_nil_of_length_eq_zero (Nat.le_zero.mp hfuel)
    exact ⟨rfl, fun _ hc => nomatch hc⟩
  | succ fuel ih =>
    cases body with
    | nil => exact ⟨rfl, fun _ hc => nomatch hc⟩
    | cons b body =>
      have hrest : ((b :: body).drop size).length ≤ fuel := by
        rw [List.length_drop, List.length_cons]
        rw [List.length_cons] at hfuel
        omega
      obtain ⟨hflat, hall⟩ := ih hrest
      refine ⟨?_, fun c hc => ?_⟩
      · show ((b :: body).take size :: _).flatten = _
        rw [List.flatten_cons, hflat, List.take_append_drop]
      · rcases List.mem_cons.mp hc with rfl | hc
        · refine ⟨?_, List.length_take_le _ _⟩
          obtain ⟨k, rfl⟩ : ∃ k, size = k + 1 := ⟨size - 1, by omega⟩
          exact List.cons_ne_nil _ _
        · exact hall c hc

/-- The frames of a body. -/
theorem frames_replaceBody {ls : Bool} {body : Bytes} {fs : List Frame}
    (h : (Modification.replaceBody body).frames ls = .ok fs) :
    fs ≠ [] ∧ (∀ f ∈ fs, f.command = byte 'b') ∧ fs.flatMap Frame.payload = body ∧
      ∀ f ∈ fs, f.payload.length ≤ bodyChunk ∧ (f.payload = [] → body = []) := by
  rcases Result.ite_ok h with ⟨hempty, h⟩ | ⟨hne, h⟩
  -- The empty body is one empty chunk; any other has no empty chunk.
  · obtain rfl := Except.ok.inj h
    obtain rfl := List.isEmpty_iff.mp hempty
    refine ⟨List.cons_ne_nil _ _, ?_, rfl, ?_⟩ <;> intro f hf <;>
      obtain rfl := List.mem_singleton.mp hf
    · rfl
    · exact ⟨Nat.zero_le _, fun _ => rfl⟩
  · obtain rfl := Except.ok.inj h
    obtain ⟨hflat, hall⟩ := @chunks_spec bodyChunk body.length body (by decide) le_rfl
    have hbody : body ≠ [] := fun h => hne (List.isEmpty_iff.mpr h)
    refine ⟨?_, ?_, ?_, ?_⟩
    · intro hnil
      rw [List.map_eq_nil_iff] at hnil
      rw [hnil] at hflat
      exact hbody hflat.symm
    · intro f hf
      obtain ⟨c, -, rfl⟩ := List.mem_map.mp hf
      rfl
    · rw [List.flatMap_map]
      show (Modification.chunks bodyChunk body.length body).flatMap id = body
      rw [List.flatMap_id, hflat]
    · intro f hf
      obtain ⟨c, hc, rfl⟩ := List.mem_map.mp hf
      exact ⟨(hall c hc).2, fun hnil => absurd hnil (hall c hc).1⟩

/-! ### Modifications -/

/-- The chunks of a body are one edit. -/
theorem edit_replaceBody {ls raw : Bool} {body : Bytes} {fs : List Frame} (hne : fs ≠ [])
    (hall : ∀ f ∈ fs, f.command = byte 'b') (hbody : fs.flatMap Frame.payload = body) :
    edit ls raw fs = some (.replaceBody body) := by
  cases fs with
  | nil => exact absurd rfl hne
  | cons f fs =>
    have hrest : fs.all (·.command = byte 'b') = true :=
      List.all_eq_true.mpr fun g hg => decide_eq_true (hall g (List.mem_cons_of_mem f hg))
    rw [edit, if_pos (hall f List.mem_cons_self), hrest, if_pos rfl, hbody]

/-- A frame that is no chunk is an edit by itself. -/
theorem edit_singleton {ls raw : Bool} {f : Frame} (h : f.command ≠ byte 'b') :
    edit ls raw [f] = single ls raw f := by
  rw [edit, if_neg h, if_pos rfl]

/-- **An encoded modification is read back.** -/
theorem edit_frames {ls : Bool} {m : Modification} {fs : List Frame} (h : m.frames ls = .ok fs) :
    edit ls m.isRaw fs = some m := by
  cases m with
  | insertRawHeader index name value =>
    obtain ⟨_, -, h⟩ := Result.bind_ok_iff.mp h
    obtain ⟨_, -, h⟩ := Result.bind_ok_iff.mp h
    obtain ⟨wire, hwire, h⟩ := Result.bind_ok_iff.mp h
    obtain ⟨f, rfl, hc, hfields⟩ := headerFrame_some h
    rw [edit_singleton (by rw [hc]; decide), single, hc, hfields]
    simp +decide [Modification.isRaw, rawValue_rawWireValue hwire]
  | replaceBody body =>
    obtain ⟨hne, hall, hbody, -⟩ := frames_replaceBody h
    exact edit_replaceBody hne hall hbody
  | addHeader name value =>
    obtain ⟨_, -, h⟩ := Result.bind_ok_iff.mp h
    obtain ⟨_, -, h⟩ := Result.bind_ok_iff.mp h
    obtain ⟨f, rfl, hc, hfields⟩ := headerFrame_none h
    rw [edit_singleton (by rw [hc]; decide), single, hc, hfields]
    simp +decide [structured_wireValue]
  | insertHeader index name value =>
    obtain ⟨_, -, h⟩ := Result.bind_ok_iff.mp h
    obtain ⟨_, -, h⟩ := Result.bind_ok_iff.mp h
    obtain ⟨f, rfl, hc, hfields⟩ := headerFrame_some h
    rw [edit_singleton (by rw [hc]; decide), single, hc, hfields]
    simp +decide [Modification.isRaw, structured_wireValue]
  | changeHeader occurrence name value =>
    obtain ⟨_, -, h⟩ := Result.bind_ok_iff.mp h
    obtain ⟨_, -, h⟩ := Result.bind_ok_iff.mp h
    obtain ⟨_, -, h⟩ := Result.bind_ok_iff.mp h
    obtain ⟨f, rfl, hc, hfields⟩ := headerFrame_some h
    rw [edit_singleton (by rw [hc]; decide), single, hc, hfields]
    simp +decide [structured_wireValue]
  | changeFrom address parameters =>
    obtain ⟨f, rfl, hc, hfields⟩ := envelopeFrame_ok h
    rw [edit_singleton (by rw [hc]; decide), single, hc, envelope, hfields]
    cases parameters <;> simp +decide
  | addRecipient address parameters =>
    obtain ⟨f, rfl, hc, hfields⟩ := envelopeFrame_ok h
    cases parameters with
    | none =>
      have hc : f.command = byte '+' := hc
      rw [edit_singleton (by rw [hc]; decide), single, hc, oneField, hfields]
      simp +decide
    | some parameters =>
      have hc : f.command = byte '2' := hc
      rw [edit_singleton (by rw [hc]; decide), single, hc, nameValue, hfields]
      simp +decide
  | deleteRecipient address =>
    obtain ⟨f, rfl, hc, hfields⟩ := textFrame_ok h
    rw [edit_singleton (by rw [hc]; decide), single, hc, oneField, hfields]
    simp +decide
  | quarantine reason =>
    obtain ⟨f, rfl, hc, hfields⟩ := textFrame_ok h
    rw [edit_singleton (by rw [hc]; decide), single, hc, oneField, hfields]
    simp +decide

/-- A structured and a raw insertion of one header at one place. -/
def SameInsertion (ls : Bool) (m m' : Modification) : Prop :=
  ∃ index name value raw, m = .insertHeader index name value ∧
    m' = .insertRawHeader index name raw ∧
      Modification.rawWireValue ls raw = .ok (Modification.wireValue ls value)

/-- Only insertions share an opcode. -/
theorem eq_insertHeader {m : Modification} (h : m.opcode = byte 'i') (hraw : m.isRaw = false) :
    ∃ index name value, m = .insertHeader index name value := by
  cases m with
  | insertHeader index name value => exact ⟨index, name, value, rfl⟩
  | insertRawHeader => exact nomatch hraw
  | addRecipient address parameters =>
    cases parameters <;> simp +decide [Modification.opcode] at h
  | _ => simp +decide [Modification.opcode] at h

/-- A raw and another modification with equal frames are one insertion. -/
theorem sameInsertion_of_frames {ls : Bool} {m m' : Modification} {fs : List Frame}
    (h : m.frames ls = .ok fs) (h' : m'.frames ls = .ok fs) (hraw : m.isRaw = false)
    (hraw' : m'.isRaw = true) : SameInsertion ls m m' := by
  cases m' with
  | insertRawHeader index' name' raw =>
    obtain ⟨_, -, h'⟩ := Result.bind_ok_iff.mp h'
    obtain ⟨_, -, h'⟩ := Result.bind_ok_iff.mp h'
    obtain ⟨wire, hwire, h'⟩ := Result.bind_ok_iff.mp h'
    obtain ⟨f, rfl, hc, hfields⟩ := headerFrame_some h'
    -- Frames carry the opcode of their modification, and two modifications write an `i`.
    have hopcode : m.opcode = byte 'i' :=
      (Modification.frames_command h f List.mem_cons_self).symm.trans hc
    obtain ⟨index, name, value, rfl⟩ := eq_insertHeader hopcode hraw
    obtain ⟨_, -, h⟩ := Result.bind_ok_iff.mp h
    obtain ⟨_, -, h⟩ := Result.bind_ok_iff.mp h
    obtain ⟨g, hg, -, hfields'⟩ := headerFrame_some h
    obtain rfl := (List.cons.inj hg).1
    obtain ⟨rfl, hfield⟩ := Prod.mk.inj (Option.some.inj (hfields.symm.trans hfields'))
    obtain ⟨rfl, rfl⟩ := Prod.mk.inj hfield
    exact ⟨_, _, value, raw, rfl, rfl, hwire⟩
  | _ => exact nomatch hraw'

/-- **Modification encoding is faithful.**  The frames give back the modification; the
    modifications with these frames are equal, up to the two readings of an insertion; the
    chunks of a body are bounded, and only an empty body has an empty one. -/
theorem frames_faithful {ls : Bool} {m : Modification} {fs : List Frame}
    (h : m.frames ls = .ok fs) :
    edit ls m.isRaw fs = some m ∧
    (∀ m', m'.frames ls = .ok fs → m' = m ∨ SameInsertion ls m m' ∨ SameInsertion ls m' m) ∧
    ∀ body, m = .replaceBody body →
      ∀ f ∈ fs, f.payload.length ≤ bodyChunk ∧ (f.payload = [] → body = []) := by
  refine ⟨edit_frames h, fun m' h' => ?_, ?_⟩
  · have hread := edit_frames h
    have hread' := edit_frames h'
    -- Read in the same way the two are equal; read in two ways they are the one insertion.
    cases hraw : m.isRaw <;> cases hraw' : m'.isRaw
    · rw [hraw] at hread
      rw [hraw'] at hread'
      exact .inl (Option.some.inj (hread'.symm.trans hread))
    · exact .inr (.inl (sameInsertion_of_frames h h' hraw hraw'))
    · exact .inr (.inr (sameInsertion_of_frames h' h hraw' hraw))
    · rw [hraw] at hread
      rw [hraw'] at hread'
      exact .inl (Option.some.inj (hread'.symm.trans hread))
  · rintro body rfl
    exact (frames_replaceBody h).2.2.2

/-- The insertion of a header is read back. -/
theorem frames_faithful_at_insertion :
    edit true false [⟨byte 'i', [0, 0, 0, 2, byte 'A', 0, byte ' ', byte 'b', 0]⟩] =
      some (.insertHeader 2 "A" "b") :=
  (frames_faithful (m := .insertHeader 2 "A" "b") (by decide +kernel)).1

end MtaHooks
