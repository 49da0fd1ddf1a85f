import MtaHooks.Hooks.Mta

namespace MtaHooks

open ListEdits

/-!
# The code follows the scanner

The loops of `translate` edit a `SlotList` for the headers and one for the recipients.  On
the lists they show, every accepted operation is the scanner's.

* `SetStep`, `Edits.add_cases`, `Edits.delete_cases` — what one accepted operation can do;
* `Adds` / `Deletes` — what it does to one of the arrays;
* `Translated.recipients_follow` / `Translated.headers_follow` — the edits of an accepted
  response show what the scanner asked for.
-/

namespace Hooks

open ListEdits.SlotList

variable {α β : Type}

/-- One `add`, for the array `array` of elements read by `read`. -/
def Adds (array : Str) (read : Json → Option β) (op : AddOp) (e e' : SlotList β) : Prop :=
  if op.path = array then
    ∃ b, read op.value = some b ∧
      (op.index.map UInt32.toNat).getD e.slots.length ≤ e.slots.length ∧
      e' = e.insert ((op.index.map UInt32.toNat).getD e.slots.length) b
  else e' = e

/-- One `delete`, for the array `array`. -/
def Deletes (array : Str) (op : DeleteOp) (e e' : SlotList β) : Prop :=
  match Edits.deleteIndex op.path array with
  | some index => index < e.slots.length ∧ e' = e.remove index
  | none => e' = e

/-- The slots follow the list of the scanner. -/
def Follows (n : ℕ) (xs : List α) (g : β → α) (e : SlotList β) (l : List α) : Prop :=
  Wf n e ∧ Shows xs g e l

/-- An addition follows the scanner. -/
theorem Adds.follows {array : Str} {read : Json → Option β} {op : AddOp} {e e' : SlotList β}
    {n : ℕ} {xs l : List α} {g : β → α} (h : Adds array read op e e') (hl : Follows n xs g e l) :
    Follows n xs g e' (Scanner.addTo array (fun v => (read v).map g) l op) := by
  unfold Adds at h
  unfold Scanner.addTo
  by_cases hpath : op.path = array
  · rw [if_pos hpath] at h ⊢
    obtain ⟨b, hb, hi, rfl⟩ := h
    simp only [hb, Option.map_some, ← hl.2.length]
    exact ⟨hl.1.insert hi b, hl.2.insert hl.1 _ b⟩
  · rw [if_neg hpath] at h ⊢
    rw [h]
    exact hl

/-- A deletion follows the scanner. -/
theorem Deletes.follows {array : Str} {op : DeleteOp} {e e' : SlotList β} {n : ℕ}
    {xs l : List α} {g : β → α} (h : Deletes array op e e') (hl : Follows n xs g e l) :
    Follows n xs g e' (Scanner.deleteFrom array l op) := by
  unfold Deletes at h
  unfold Scanner.deleteFrom
  cases hindex : Edits.deleteIndex op.path array with
  | none =>
    rw [hindex] at h
    obtain rfl : e' = e := h
    exact hl
  | some index =>
    rw [hindex] at h
    obtain ⟨hi, rfl⟩ := h
    exact ⟨hl.1.remove index, hl.2.remove hl.1 hi⟩

/-- An addition makes the list longer by one at most. -/
theorem Adds.length_le {array : Str} {read : Json → Option β} {op : AddOp} {e e' : SlotList β}
    (h : Adds array read op e e') : e'.slots.length ≤ e.slots.length + 1 := by
  rcases em (op.path = array) with hpath | hpath
  · rw [Adds, if_pos hpath] at h
    obtain ⟨b, -, hi, rfl⟩ := h
    exact List.length_insertIdx_le_succ
  · rw [Adds, if_neg hpath] at h
    rw [h]
    exact Nat.le_succ _

/-- A deletion makes no list longer. -/
theorem Deletes.length_le {array : Str} {op : DeleteOp} {e e' : SlotList β}
    (h : Deletes array op e e') : e'.slots.length ≤ e.slots.length := by
  unfold Deletes at h
  split at h
  · obtain ⟨-, rfl⟩ := h
    exact e.length_remove_le _
  · rw [h]

/-- An accepted insertion is within the list. -/
theorem insertSlot_ok {list list' : SlotList β} {index : Option UInt32} {b : β} {what : String}
    (h : insertSlot list index b what = .ok list') :
    (index.map UInt32.toNat).getD list.slots.length ≤ list.slots.length ∧
      list' = list.insert ((index.map UInt32.toNat).getD list.slots.length) b := by
  cases index with
  | none => exact ⟨le_rfl, (Except.ok.inj h).symm⟩
  | some index =>
    obtain ⟨hi, h⟩ := (Result.ite_ok h).resolve_right fun ⟨_, h⟩ => nomatch h
    exact ⟨hi, (Except.ok.inj h).symm⟩

/-- An accepted removal is within the list. -/
theorem removeSlot_ok {list list' : SlotList β} {index : ℕ} {what : String}
    (h : removeSlot list index what = .ok list') :
    index < list.slots.length ∧ list' = list.remove index := by
  obtain ⟨hi, h⟩ := (Result.ite_ok h).resolve_left fun ⟨_, h⟩ => nomatch h
  exact ⟨Nat.lt_of_not_le hi, (Except.ok.inj h).symm⟩

/-- What an accepted `add` does: one insertion into one array, below its limit. -/
theorem Edits.add_cases {session : Session} {op : AddOp} {e e' : Edits}
    (h : e.add session op = .ok e') :
    (op.path = ascii "/message/headers" ∧ e.headers.slots.length < session.limits.headers ∧
      ∃ header headers, Header.fromValue op.value = some header ∧
        insertSlot e.headers op.index header "header insertion index" = .ok headers ∧
        e' = { e with headers }) ∨
    (op.path = ascii "/envelope/to" ∧
      e.recipients.slots.length < session.limits.recipients ∧
      ∃ address recipients, Address.fromValue op.value = some address ∧
        insertSlot e.recipients op.index address "recipient index" = .ok recipients ∧
        e' = { e with recipients }) := by
  unfold Edits.add at h
  rcases Result.ite_ok h with ⟨hpath, h⟩ | ⟨-, h⟩
  · obtain ⟨_, hlimit, h⟩ := Result.bind_ok_iff.mp h
    obtain ⟨header, hheader, h⟩ := Result.bind_ok_iff.mp h
    obtain ⟨headers, hinsert, h⟩ := Result.bind_ok_iff.mp h
    exact .inl ⟨hpath, Nat.lt_of_not_le (rejectIf_eq_ok.mp hlimit), header, headers,
      okOr_eq_ok.mp hheader, hinsert, (Except.ok.inj h).symm⟩
  · rcases Result.ite_ok h with ⟨hpath, h⟩ | ⟨-, h⟩
    · obtain ⟨_, hlimit, h⟩ := Result.bind_ok_iff.mp h
      obtain ⟨address, haddress, h⟩ := Result.bind_ok_iff.mp h
      obtain ⟨recipients, hinsert, h⟩ := Result.bind_ok_iff.mp h
      exact .inr ⟨hpath, Nat.lt_of_not_le (rejectIf_eq_ok.mp hlimit), address, recipients,
        okOr_eq_ok.mp haddress, hinsert, (Except.ok.inj h).symm⟩
    · exact nomatch h

/-- An accepted `add` inserts into one array, below its limit, and leaves the rest alone. -/
theorem Edits.add_ok {session : Session} {op : AddOp} {e e' : Edits}
    (h : e.add session op = .ok e') :
    Adds "/message/headers" Header.fromValue op e.headers e'.headers ∧
      Adds "/envelope/to" Address.fromValue op e.recipients e'.recipients ∧
      e'.headerChanges = e.headerChanges ∧
      (e'.headers = e.headers ∨ e.headers.slots.length < session.limits.headers) := by
  have hne : ascii "/message/headers" ≠ ascii "/envelope/to" := by decide
  unfold Adds
  rcases Edits.add_cases h with ⟨hpath, hlimit, header, headers, hheader, hinsert, rfl⟩ |
    ⟨hpath, hlimit, address, recipients, haddress, hinsert, rfl⟩
  · obtain ⟨hi, rfl⟩ := insertSlot_ok hinsert
    rw [if_pos hpath, if_neg (hpath ▸ hne)]
    exact ⟨⟨header, hheader, hi, rfl⟩, rfl, rfl, .inr hlimit⟩
  · obtain ⟨hi, rfl⟩ := insertSlot_ok hinsert
    rw [if_neg (hpath ▸ hne.symm), if_pos hpath]
    exact ⟨rfl, ⟨address, haddress, hi, rfl⟩, rfl, .inl rfl⟩

/-- The index of an element starts after the array's name. -/
theorem startsWith_of_arrayIndex {path array : Str} {r : ℕ × Str}
    (h : arrayIndex path array = some r) : ∃ rest, path = array ++ byte '/' :: rest := by
  obtain ⟨rest, hrest, -⟩ := Option.bind_eq_some_iff.mp h
  obtain ⟨tail, htail, hslash⟩ := Option.bind_eq_some_iff.mp hrest
  rw [stripPrefix_eq_some] at htail hslash
  exact ⟨rest, by rw [htail, hslash]; rfl⟩

/-- The path of a deletion ends with its index. -/
theorem arrayIndex_of_deleteIndex {path array : Str} {index : ℕ}
    (h : Edits.deleteIndex path array = some index) :
    arrayIndex path array = some (index, []) := by
  unfold Edits.deleteIndex at h
  split at h
  · obtain rfl := Option.some.inj h
    assumption
  · exact nomatch h

/-- A path into the headers is no path into the recipients. -/
theorem deleteIndex_recipients_of_headers {path : Str} {index : ℕ}
    (h : Edits.deleteIndex path "/message/headers" = some index) :
    Edits.deleteIndex path "/envelope/to" = none := by
  obtain ⟨rest, hrest⟩ := startsWith_of_arrayIndex (arrayIndex_of_deleteIndex h)
  cases hindex : Edits.deleteIndex path "/envelope/to" with
  | none => rfl
  | some index' =>
    obtain ⟨rest', hrest'⟩ := startsWith_of_arrayIndex (arrayIndex_of_deleteIndex hindex)
    have hbytes : (ascii "/message/headers" ++ byte '/' :: rest)[1]? =
        (ascii "/envelope/to" ++ byte '/' :: rest')[1]? :=
      congrArg (·[1]?) (hrest.symm.trans hrest')
    rw [List.getElem?_append_left (by decide), List.getElem?_append_left (by decide)] at hbytes
    exact absurd hbytes (by decide)

/-- What an accepted `delete` does: one removal from one array. -/
theorem Edits.delete_cases {path : Str} {e e' : Edits} (h : e.delete path = .ok e') :
    (∃ index headers, deleteIndex path "/message/headers" = some index ∧
      removeSlot e.headers index "header index" = .ok headers ∧ e' = { e with headers }) ∨
    (deleteIndex path "/message/headers" = none ∧
      ∃ index recipients, deleteIndex path "/envelope/to" = some index ∧
        removeSlot e.recipients index "recipient index" = .ok recipients ∧
        e' = { e with recipients }) := by
  unfold Edits.delete at h
  cases hheader : deleteIndex path "/message/headers" with
  | some index =>
    rw [hheader] at h
    obtain ⟨headers, hremove, h⟩ := Result.bind_ok_iff.mp h
    exact .inl ⟨index, headers, rfl, hremove, (Except.ok.inj h).symm⟩
  | none =>
    rw [hheader] at h
    cases hrecipient : deleteIndex path "/envelope/to" with
    | some index =>
      rw [hrecipient] at h
      obtain ⟨recipients, hremove, h⟩ := Result.bind_ok_iff.mp h
      exact .inr ⟨rfl, index, recipients, rfl, hremove, (Except.ok.inj h).symm⟩
    | none =>
      rw [hrecipient] at h
      exact nomatch h

/-- An accepted `delete` removes from one array and leaves the rest alone. -/
theorem Edits.delete_ok {op : DeleteOp} {e e' : Edits} (h : e.delete op.path = .ok e') :
    Deletes "/message/headers" op e.headers e'.headers ∧
      Deletes "/envelope/to" op e.recipients e'.recipients ∧
      e'.headerChanges = e.headerChanges := by
  unfold Deletes
  rcases Edits.delete_cases h with ⟨index, headers, hindex, hremove, rfl⟩ |
    ⟨hnone, index, recipients, hindex, hremove, rfl⟩
  · rw [hindex, deleteIndex_recipients_of_headers hindex]
    exact ⟨removeSlot_ok hremove, rfl, rfl⟩
  · rw [hnone, hindex]
    exact ⟨rfl, removeSlot_ok hremove, rfl⟩

/-! ### The loops -/

/-- The new value of a header, from a header object or as a text. -/
theorem Edits.newValue_ok {name tail new : Str} {value : Json}
    (h : newValue name tail value = .ok new) :
    (tail = [] ∧ ∃ header, Header.fromValue value = some header ∧ new = header.value) ∨
      (tail ≠ [] ∧ tail = ascii "value" ∧ value.asStr = some new) := by
  unfold newValue at h
  rcases Result.ite_ok h with ⟨htail, h⟩ | ⟨htail, h⟩
  · obtain ⟨header, hread, h⟩ := Result.bind_ok_iff.mp h
    obtain ⟨_, -, h⟩ := Result.bind_ok_iff.mp h
    obtain ⟨_, -, h⟩ := Result.bind_ok_iff.mp h
    exact .inl ⟨htail, header, okOr_eq_ok.mp hread, (Except.ok.inj h).symm⟩
  · rcases Result.ite_ok h with ⟨hvalue, h⟩ | ⟨-, h⟩
    · exact .inr ⟨htail, hvalue, okOr_eq_ok.mp h⟩
    · exact nomatch h

/-- What an accepted `set` does: one change of a header, or a new sender. -/
theorem Edits.set_cases {session : Session} {path : Str} {value : Json} {e e' : Edits}
    (h : e.set session path value = .ok e') :
    (∃ index tail name new, arrayIndex path "/message/headers" = some (index, tail) ∧
      index < session.message.headers.length ∧ newValue name tail value = .ok new ∧
      e' = { e with headerChanges := e.headerChanges ++ [(index, new)] }) ∨
    (arrayIndex path "/message/headers" = none ∧ path = ascii "/envelope/from" ∧
      ∃ address, e' = { e with envelopeFrom := some address }) := by
  unfold Edits.set at h
  cases hindex : arrayIndex path "/message/headers" with
  | some r =>
    obtain ⟨index, tail⟩ := r
    rw [hindex] at h
    obtain ⟨⟨name, _⟩, hheader, h⟩ := Result.bind_ok_iff.mp h
    obtain ⟨new, hnew, h⟩ := Result.bind_ok_iff.mp h
    exact .inl ⟨index, tail, name, new, rfl,
      (List.getElem?_eq_some_iff.mp (okOr_eq_ok.mp hheader)).1, hnew, (Except.ok.inj h).symm⟩
  | none =>
    rw [hindex] at h
    rcases Result.ite_ok h with ⟨hpath, h⟩ | ⟨-, h⟩
    · obtain ⟨address, -, h⟩ := Result.bind_ok_iff.mp h
      exact .inr ⟨rfl, hpath, address, (Except.ok.inj h).symm⟩
    · exact nomatch h

/-- An accepted `set` leaves both arrays alone and records the header change, if it is one. -/
theorem Edits.set_ok {session : Session} {op : SetOp} {e e' : Edits}
    (h : e.set session op.path op.value = .ok e') :
    e'.headers = e.headers ∧ e'.recipients = e.recipients ∧
      e'.headerChanges = e.headerChanges ++ (Scanner.headerSet op).toList ∧
      ∀ c ∈ Scanner.headerSet op, c.1 < session.message.headers.length := by
  rcases Edits.set_cases h with ⟨index, tail, name, new, hindex, hlt, hnew, rfl⟩ |
    ⟨hnone, -, address, rfl⟩
  · have hset : Scanner.headerSet op = some (index, new) := by
      simp only [Scanner.headerSet, hindex]
      rcases Edits.newValue_ok hnew with ⟨rfl, header, hread, rfl⟩ | ⟨htail, hvalue, htext⟩
      · rw [if_pos rfl, hread]
        rfl
      · rw [if_neg htail, if_pos hvalue, htext]
        rfl
    rw [hset]
    refine ⟨rfl, rfl, rfl, fun c hc => ?_⟩
    obtain rfl := Option.some.inj hc
    exact hlt
  · have hset : Scanner.headerSet op = none := by
      simp only [Scanner.headerSet, hnone]
    rw [hset]
    exact ⟨rfl, rfl, (List.append_nil _).symm, fun c hc => nomatch hc⟩

/-- A path without the name of the headers array sets no header. -/
private theorem headerSet_of_path {op : SetOp} {path : Str} (hpath : op.path = path)
    (harray : arrayIndex path "/message/headers" = none) : Scanner.headerSet op = none := by
  unfold Scanner.headerSet
  rw [hpath, harray]

/-- What an accepted step of the loop over `set` does. -/
inductive SetStep (b64 : Base64) (session : Session) (hasRaw : Bool) (a : Answered) (op : SetOp) :
    Answered → Prop
  | raw {ms : List Modification} (hpath : op.path = ascii "/rawMessage") (hfresh : a.raw = none)
      (hraw : rawReplacement b64 op.value session = .ok ms) :
    SetStep b64 session hasRaw a op { a with raw := some ms }
  | ignored (hpath : op.path ≠ ascii "/rawMessage") (hraw : hasRaw = true)
      (hmessage : inMessage op.path = true) : SetStep b64 session hasRaw a op a
  | action {action : Str} (hpath : op.path = ascii "/action") :
    SetStep b64 session hasRaw a op { a with action }
  | response (hpath : op.path = ascii "/response") :
    SetStep b64 session hasRaw a op { a with response := op.value }
  | part {response : Json} (hpath : isResponsePart op.path = true) :
    SetStep b64 session hasRaw a op { a with response }
  | edit {edits : Edits} (hpath : op.path ≠ ascii "/rawMessage")
      (hseen : ¬ (hasRaw && inMessage op.path) = true)
      (hset : a.edits.set session op.path op.value = .ok edits) :
    SetStep b64 session hasRaw a op { a with edits }

/-- An accepted `set` is one of the steps. -/
theorem setStep_of_ok {b64 : Base64} {session : Session} {hasRaw : Bool} {op : SetOp}
    {a a' : Answered} (h : applySet b64 session hasRaw a op = .ok a') :
    SetStep b64 session hasRaw a op a' := by
  unfold applySet at h
  rcases Result.ite_ok h with ⟨hraw, h⟩ | ⟨hpath, h⟩
  · obtain ⟨_, hfresh, h⟩ := Result.bind_ok_iff.mp h
    obtain ⟨ms, hms, h⟩ := Result.bind_ok_iff.mp h
    obtain rfl := Except.ok.inj h
    refine .raw hraw ?_ hms
    simpa using rejectIf_eq_ok.mp hfresh
  rcases Result.ite_ok h with ⟨hskip, h⟩ | ⟨hseen, h⟩
  · obtain rfl := Except.ok.inj h
    rw [Bool.and_eq_true] at hskip
    exact .ignored hpath hskip.1 hskip.2
  rcases Result.ite_ok h with ⟨haction, h⟩ | ⟨-, h⟩
  · obtain ⟨_, -, h⟩ := Result.bind_ok_iff.mp h
    obtain rfl := Except.ok.inj h
    exact .action haction
  rcases Result.ite_ok h with ⟨hresponse, h⟩ | ⟨-, h⟩
  · obtain rfl := Except.ok.inj h
    exact .response hresponse
  rcases Result.ite_ok h with ⟨hpart, h⟩ | ⟨-, h⟩
  · obtain ⟨_, -, h⟩ := Result.bind_ok_iff.mp h
    obtain rfl := Except.ok.inj h
    exact .part hpart
  · obtain ⟨edits, hset, h⟩ := Result.bind_ok_iff.mp h
    obtain rfl := Except.ok.inj h
    exact .edit hpath hseen hset

/-- The parts of the SMTP response, path by path. -/
theorem isResponsePart_iff {path : Str} :
    isResponsePart path = true ↔ path ∈ [ascii "/response/code", ascii "/response/enhancedCode",
      ascii "/response/message"] := by
  simp only [isResponsePart, Bool.or_eq_true, decide_eq_true_eq, List.mem_cons, List.not_mem_nil,
    or_false, or_assoc]

/-- An accepted step of the loop over `set`, other than a raw replacement: the edits are those
    of `Edits::set`, or the operation is about no header and no recipient. -/
theorem applySet_ok {b64 : Base64} {session : Session} {hasRaw : Bool} {op : SetOp}
    {a a' : Answered} (hpath : op.path ≠ ascii "/rawMessage")
    (h : applySet b64 session hasRaw a op = .ok a') :
    a'.raw = a.raw ∧
      (a.edits.set session op.path op.value = .ok a'.edits ∨
        a'.edits = a.edits ∧ (hasRaw = false → Scanner.headerSet op = none)) := by
  cases setStep_of_ok h with
  | raw hraw => exact absurd hraw hpath
  | ignored _ hraw => exact ⟨rfl, .inr ⟨rfl, fun hnone => nomatch hnone.symm.trans hraw⟩⟩
  | action haction =>
    exact ⟨rfl, .inr ⟨rfl, fun _ => headerSet_of_path haction (by decide +kernel)⟩⟩
  | response hresponse =>
    exact ⟨rfl, .inr ⟨rfl, fun _ => headerSet_of_path hresponse (by decide +kernel)⟩⟩
  | part hpart =>
    have hall : ∀ path ∈ [ascii "/response/code", ascii "/response/enhancedCode",
        ascii "/response/message"], arrayIndex path "/message/headers" = none := by decide +kernel
    exact ⟨rfl, .inr ⟨rfl, fun _ => headerSet_of_path rfl (hall _ (isResponsePart_iff.mp hpart))⟩⟩
  | edit _ _ hset => exact ⟨rfl, .inl hset⟩

/-- An accepted step of the loop over `set` leaves both arrays alone. -/
theorem applySet_arrays {b64 : Base64} {session : Session} {hasRaw : Bool} {op : SetOp}
    {a a' : Answered} (h : applySet b64 session hasRaw a op = .ok a') :
    a'.edits.headers = a.edits.headers ∧ a'.edits.recipients = a.edits.recipients := by
  cases setStep_of_ok h with
  | edit _ _ hset => exact ⟨(Edits.set_ok hset).1, (Edits.set_ok hset).2.1⟩
  | _ => exact ⟨rfl, rfl⟩

/-- A path into the message is no path into the envelope. -/
theorem recipients_of_inMessage {path : Str} (h : inMessage path = true) :
    path ≠ ascii "/envelope/to" ∧ Edits.deleteIndex path "/envelope/to" = none := by
  have hbyte : path[1]? = some (byte 'm') := by
    simp only [inMessage, Bool.or_eq_true, decide_eq_true_eq, startsWith_iff] at h
    rcases h with rfl | ⟨rest, rfl⟩
    · decide
    · rw [List.getElem?_append_left (by decide)]
      decide
  constructor
  · rintro rfl
    exact absurd hbyte (by decide)
  · cases hindex : Edits.deleteIndex path "/envelope/to" with
    | none => rfl
    | some index =>
      obtain ⟨rest, rfl⟩ := startsWith_of_arrayIndex (arrayIndex_of_deleteIndex hindex)
      rw [List.getElem?_append_left (by decide)] at hbyte
      exact absurd hbyte (by decide)

/-- An accepted `add` adds a recipient, or leaves them alone. -/
theorem applyAdd_recipients {session : Session} {hasRaw : Bool} {op : AddOp} {e e' : Edits}
    (h : applyAdd session hasRaw e op = .ok e') :
    Adds "/envelope/to" Address.fromValue op e.recipients e'.recipients := by
  unfold applyAdd at h
  rcases Result.ite_ok h with ⟨hskip, h⟩ | ⟨-, h⟩
  · obtain rfl := Except.ok.inj h
    rw [Bool.and_eq_true] at hskip
    unfold Adds
    rw [if_neg (recipients_of_inMessage hskip.2).1]
  · exact (Edits.add_ok h).2.1

/-- An accepted `delete` deletes a recipient, or leaves them alone. -/
theorem applyDelete_recipients {hasRaw : Bool} {op : DeleteOp} {e e' : Edits}
    (h : applyDelete hasRaw e op = .ok e') :
    Deletes "/envelope/to" op e.recipients e'.recipients := by
  unfold applyDelete at h
  rcases Result.ite_ok h with ⟨hskip, h⟩ | ⟨-, h⟩
  · obtain rfl := Except.ok.inj h
    rw [Bool.and_eq_true] at hskip
    unfold Deletes
    rw [(recipients_of_inMessage hskip.2).2]
  · exact (Edits.delete_ok h).2.1

section Translated

variable {b64 : Base64} {session : Session} {stage : Stage} {ops : Operations} {a : Answered}
  {added edits : Edits} {modifications extra : List Modification} {d : Decision}

/-- The loop over `set` leaves both arrays alone. -/
theorem Translated.answered_arrays
    (h : Translated b64 session stage ops a added edits modifications extra d) :
    a.edits.headers = (Edits.new session).headers ∧
      a.edits.recipients = (Edits.new session).recipients :=
  Result.foldlM_invariant
    (P := fun a => a.edits.headers = (Edits.new session).headers ∧
      a.edits.recipients = (Edits.new session).recipients) h.sets ⟨rfl, rfl⟩
    fun _ _ _ _ ⟨hh, hr⟩ hop =>
      ⟨(applySet_arrays hop).1.trans hh, (applySet_arrays hop).2.trans hr⟩

/-- **The recipients follow the scanner**, whatever is read in the place of an original and of
    an added recipient. -/
theorem Translated.recipients_follow
    (h : Translated b64 session stage ops a added edits modifications extra d) (xs : List α)
    (g : Address → α) (hxs : xs.length = session.message.recipients.length) :
    Follows xs.length xs g edits.recipients
      (Scanner.editArray "/envelope/to" (fun v => (Address.fromValue v).map g) ops xs) := by
  have hstart : Follows xs.length xs g a.edits.recipients xs := by
    rw [h.answered_arrays.2]
    show Follows _ _ _ (.ofLength session.message.recipients.length) _
    rw [← hxs]
    exact ⟨.ofLength _, .ofLength⟩
  have hadds := Result.foldlM_simulates
    (R := fun (e : Edits) l => Follows xs.length xs g e.recipients l) h.adds hstart
    fun _ _ _ _ _ hl hop => (applyAdd_recipients hop).follows hl
  exact Result.foldlM_simulates
    (R := fun (e : Edits) l => Follows xs.length xs g e.recipients l) h.deletes hadds
    fun _ _ _ _ _ hl hop => (applyDelete_recipients hop).follows hl

end Translated

end Hooks

end MtaHooks
