import MtaHooks.Hooks.CheckedRaw
import MtaHooks.Hooks.Follows
import MtaHooks.Session.Safety
import Mathlib.Data.List.TakeWhile

namespace MtaHooks

open Agreement Hooks ListEdits

/-!
# The indices of a response and of a request

`translate` and `request` once more, with every index of the source.

* `Checked.EditsWf` — what the loops keep: the slot lists are well-formed, so an added slot is
  present and emitted once, and header changes name headers of the message;
* `Checked.modifications_agrees` — the edits miss no bound when they are resolved;
* `Checked.translate_agrees`, `Checked.request_agrees` — the whole functions;
* `Session.never_panics` — no frame, decision, response or property list reaches a panic.
-/

namespace Checked

/-- `n - 1` of a `usize`. -/
def pred (n : ℕ) : Result ℕ :=
  if 0 < n then .ok (n - 1) else .error (.panic "subtraction overflow")

/-- A positive number has a predecessor. -/
theorem pred_of_pos {n : ℕ} (h : 0 < n) : pred n = .ok (n - 1) := if_pos h

/-! ### Slots -/

section Slots

variable {β : Type}

/-- Insert an element before an index, or append it. -/
def insertSlot (list : SlotList β) (at? : Option UInt32) (b : β) (what : String) :
    Result (SlotList β) := do
  let added := list.added ++ [some b]
  let slot ← pred added.length
  match at? with
  | some i =>
    if i.toNat ≤ list.slots.length then do
      let slots ← insert list.slots i.toNat (.added slot)
      return { list with slots, added }
    else .error (.invalid what)
  | none => return { list with slots := list.slots ++ [.added slot], added }

/-- Remove the element at an index. -/
def removeSlot (list : SlotList β) (i : ℕ) (what : String) : Result (SlotList β) :=
  if list.slots.length ≤ i then .error (.invalid what)
  else do
    let (slot, slots) ← remove list.slots i
    match slot with
    | .original k => return { list with slots, deleted := list.deleted ++ [k] }
    | .added k => do
      let added ← store list.added k none
      return { list with slots, added }

/-- An insertion stays within its list. -/
theorem insertSlot_agrees {n : ℕ} {list : SlotList β} (h : list.Wf n) (at? : Option UInt32)
    (b : β) (what : String) :
    Agrees (SlotList.Wf n) (insertSlot list at? b what) (Hooks.insertSlot list at? b what) := by
  have hpred : pred (list.added ++ [some b]).length = .ok list.added.length := by
    rw [pred_of_pos (by simp)]
    simp
  unfold insertSlot Hooks.insertSlot
  dsimp only
  rw [hpred]
  -- Appending is inserting behind the last slot.
  cases at? with
  | none =>
    have hlist : list.insert list.slots.length b =
        { list with
          slots := list.slots ++ [.added list.added.length]
          added := list.added ++ [some b] } := by
      simp [SlotList.insert]
    dsimp only
    rw [hlist]
    exact .ok (hlist ▸ h.insert le_rfl b)
  | some i =>
    refine .ite (fun hi => ?_) fun _ => .fail rfl
    rw [insert_of_le hi]
    exact .ok (h.insert hi b)

/-- A slot that is removed is an original or an added element still in the table. -/
theorem removeSlot_agrees {n : ℕ} {list : SlotList β} (h : list.Wf n) (i : ℕ) (what : String) :
    Agrees (SlotList.Wf n) (removeSlot list i what) (Hooks.removeSlot list i what) := by
  unfold removeSlot Hooks.removeSlot
  refine .ite (fun _ => .fail rfl) fun hi => ?_
  have hlt : i < list.slots.length := Nat.lt_of_not_le hi
  have hslot : list.slots[i]? = some list.slots[i] := List.getElem?_eq_getElem hlt
  have hwf := h.remove i
  rw [remove, hslot]
  unfold SlotList.remove at hwf ⊢
  rw [hslot] at hwf ⊢
  show Agrees _ (match list.slots[i] with
    | .original k => _
    | .added k => _) _
  cases hk : list.slots[i] with
  | original k =>
    rw [hk] at hwf
    exact .ok hwf
  | added k =>
    rw [hk] at hwf
    -- The slot list is well-formed: a slot that is there has its element in the table.
    have hpresent : (list.addedAt k).isSome := (h.present k).mp (hk ▸ List.getElem_mem hlt)
    have hin : k < list.added.length := by
      refine Nat.lt_of_not_le fun hge => ?_
      rw [SlotList.addedAt, List.getElem?_eq_none hge] at hpresent
      cases hpresent
    dsimp only
    rw [store_of_lt hin]
    exact .ok hwf

end Slots

/-! ### The operations -/

/-- What the loops over the operations keep. -/
structure EditsWf (session : Session) (e : Edits) : Prop where
  headers : e.headers.Wf session.message.headers.length
  recipients : e.recipients.Wf session.message.recipients.length
  changes : ∀ c ∈ e.headerChanges, c.1 < session.message.headers.length

/-- New edits are well formed. -/
theorem EditsWf.new (session : Session) : EditsWf session (.new session) where
  headers := .ofLength _
  recipients := .ofLength _
  changes := by simp [Edits.new]

/-- Take an `add` operation. -/
def add (session : Session) (add : AddOp) (e : Edits) : Result Edits :=
  if add.path = ascii "/message/headers" then do
    rejectIf (session.limits.headers ≤ e.headers.slots.length)
      (.limit "headers after modifications")
    let header ← okOr (Header.fromValue add.value) (.invalid "header object")
    let headers ← insertSlot e.headers add.index header "header insertion index"
    return { e with headers }
  else if add.path = ascii "/envelope/to" then do
    rejectIf (session.limits.recipients ≤ e.recipients.slots.length)
      (.limit "recipients after modifications")
    let address ← okOr (Address.fromValue add.value) (.invalid "envelope address")
    let recipients ← insertSlot e.recipients add.index address "recipient index"
    return { e with recipients }
  else .error (.invalid "add outside supported update profile")

/-- Take a `delete` operation. -/
def delete (path : Str) (e : Edits) : Result Edits :=
  match Edits.deleteIndex path "/message/headers", Edits.deleteIndex path "/envelope/to" with
  | some i, _ => do
    let headers ← removeSlot e.headers i "header index"
    return { e with headers }
  | none, some i => do
    let recipients ← removeSlot e.recipients i "recipient index"
    return { e with recipients }
  | none, none => .error (.invalid "delete outside supported update profile")

/-- The value of a header is read without a panic. -/
theorem newValue_safe (name : Bytes) (tail : Str) (value : Json) :
    (Edits.newValue name tail value).Safe :=
  .ite
    (fun _ => .bind (.okOr _ rfl) fun _ => .bind (text_safe _) fun _ =>
      .bind (.rejectIf _ rfl) fun _ => .pure _)
    fun _ => .ite (fun _ => .okOr _ rfl) fun _ => .error rfl

/-- A `set` of the source uses no index that can fail. -/
theorem set_agrees {session : Session} {e : Edits} (h : EditsWf session e) (op : SetOp) :
    Agrees (EditsWf session) (e.set session op.path op.value)
      (e.set session op.path op.value) := by
  have hsafe : (e.set session op.path op.value).Safe := by
    unfold Edits.set
    split
    · exact .bind (.okOr _ rfl) fun _ => .bind (newValue_safe _ _ _) fun _ => .pure _
    · exact .ite (fun _ => .bind (.okOr _ rfl) fun _ => .pure _) fun _ => .error rfl
  refine (Agreement.Agrees.refl hsafe).mono fun e' hset => ?_
  obtain ⟨hheaders, hrecipients, hchanges, hbound⟩ := Edits.set_ok hset
  refine ⟨hheaders ▸ h.headers, hrecipients ▸ h.recipients, fun c hc => ?_⟩
  rw [hchanges] at hc
  rcases List.mem_append.mp hc with hc | hc
  · exact h.changes c hc
  · exact hbound c (Option.mem_toList.mp hc)

/-- An `add` stays within its lists. -/
theorem add_agrees {session : Session} {e : Edits} (h : EditsWf session e) (op : AddOp) :
    Agrees (EditsWf session) (add session op e) (e.add session op) := by
  refine .ite (fun _ => ?_) fun _ => .ite (fun _ => ?_) fun _ => .fail rfl
  · refine (rejectIf_agrees _ rfl).bind fun _ _ => (okOr_agrees _ rfl).bind fun header _ => ?_
    exact (insertSlot_agrees h.headers _ _ _).bind fun headers hheaders =>
      .ok ⟨hheaders, h.recipients, h.changes⟩
  · refine (rejectIf_agrees _ rfl).bind fun _ _ => (okOr_agrees _ rfl).bind fun address _ => ?_
    exact (insertSlot_agrees h.recipients _ _ _).bind fun recipients hrecipients =>
      .ok ⟨h.headers, hrecipients, h.changes⟩

/-- A `delete` stays within its lists. -/
theorem delete_agrees {session : Session} {e : Edits} (h : EditsWf session e) (path : Str) :
    Agrees (EditsWf session) (delete path e) (e.delete path) := by
  unfold delete Edits.delete
  cases Edits.deleteIndex path "/message/headers" with
  | some i =>
    exact (removeSlot_agrees h.headers _ _).bind fun headers hheaders =>
      .ok ⟨hheaders, h.recipients, h.changes⟩
  | none =>
    cases Edits.deleteIndex path "/envelope/to" with
    | some i =>
      exact (removeSlot_agrees h.recipients _ _).bind fun recipients hrecipients =>
        .ok ⟨h.headers, hrecipients, h.changes⟩
    | none => exact .fail rfl

/-! ### The modifications -/

/-- The name of a header and its occurrence among the headers of that name. -/
def occurrence (headers : List (Bytes × Bytes)) (i : ℕ) : Result (Str × UInt32) := do
  let header ← index headers i
  let name ← text header.1
  let before ← range headers 0 i
  let occurrence ← succ (UInt32.ofNat (before.countP (Edits.sameName name)))
  return (name, occurrence)

/-- Changes and deletes as modifications, each header once. -/
def changes (headers : List (Bytes × Bytes)) :
    List (ℕ × Option Str) → List ℕ → Result (List Modification)
  | [], _ => .ok []
  | (i, value) :: edits, seen => do
    rejectIf (i ∈ seen) (.invalid "conflicting header operations")
    let (name, occurrence) ← occurrence headers i
    let modifications ← changes headers edits (i :: seen)
    return .changeHeader occurrence name (value.getD []) :: modifications

/-- Added headers as modifications, by final position; each is taken from the table. -/
def inserts (length : ℕ) :
    List (Slot × ℕ) → List (Option Header) → Result (List Modification)
  | [], _ => .ok []
  | (.original _, _) :: slots, added => inserts length slots added
  | (.added i, position) :: slots, added => do
    let entry ← index added i
    let header ← expect entry "added header is emitted once"
    let added ← store added i none
    let last ← pred length
    let modifications ← inserts length slots added
    return (if position = last then .addHeader header.name header.value
      else .insertHeader (UInt32.ofNat position) header.name header.value) :: modifications

/-- The deletion of an original recipient. -/
def recipientDelete (session : Session) (i : ℕ) : Result Modification := do
  let recipient ← index session.message.recipients i
  let address ← text recipient.address
  return .deleteRecipient address

/-- The modifications of the edits. -/
def modifications (session : Session) (e : Edits) : Result (List Modification) := do
  let changed ← changes session.message.headers e.headerEdits []
  let inserted ← inserts e.headers.slots.length e.headers.slots.zipIdx e.headers.added
  let sender ← Edits.senderChange e.envelopeFrom
  let deletes ← e.recipients.deleted.mapM (recipientDelete session)
  let adds ← (e.recipients.added.filterMap id).mapM Edits.recipientAdd
  return changed ++ inserted ++ sender ++ deletes ++ adds

/-- The occurrence of a header is counted within the list. -/
theorem occurrence_agrees {headers : List (Bytes × Bytes)} (hfew : headers.length < 2 ^ 32)
    {i : ℕ} (hi : i < headers.length) :
    Agrees (fun _ => True) (occurrence headers i) (Edits.occurrence headers i) := by
  unfold occurrence Edits.occurrence
  rw [index_of_lt hi, List.getElem?_eq_getElem hi]
  refine (text_agrees headers[i].1).bind fun name _ => ?_
  rw [range_of_le (Nat.zero_le _) hi.le, List.drop_zero]
  -- At most `i` headers stand before this one, so one more fits a `u32`.
  have hcount : (headers.take i).countP (Edits.sameName name) ≤ i :=
    List.countP_le_length.trans (List.length_take_le _ _)
  have hsmall : (UInt32.ofNat ((headers.take i).countP (Edits.sameName name))).toNat =
      (headers.take i).countP (Edits.sameName name) :=
    UInt32.toNat_ofNat_of_lt' (by show _ < 2 ^ 32; omega)
  have hsucc : succ (UInt32.ofNat ((headers.take i).countP (Edits.sameName name))) =
      .ok (UInt32.ofNat ((headers.take i).countP (Edits.sameName name)) + 1) :=
    if_pos (by rw [hsmall]; omega)
  show Agrees _ (succ (UInt32.ofNat ((headers.take i).countP (Edits.sameName name))) >>= _) _
  rw [hsucc]
  exact .ok trivial

/-- Every header that is changed or deleted is one of the message. -/
theorem changes_agrees {headers : List (Bytes × Bytes)} (hfew : headers.length < 2 ^ 32)
    {edits : List (ℕ × Option Str)} (hedits : ∀ x ∈ edits, x.1 < headers.length)
    (seen : List ℕ) :
    Agrees (fun _ => True) (changes headers edits seen) (Edits.changes headers edits seen) := by
  induction edits generalizing seen with
  | nil => exact .ok trivial
  | cons x edits ih =>
    obtain ⟨i, value⟩ := x
    refine (rejectIf_agrees _ rfl).bind fun _ _ => ?_
    refine (occurrence_agrees hfew (hedits _ List.mem_cons_self)).bind fun _ _ => ?_
    exact (ih (fun x hx => hedits x (List.mem_cons_of_mem _ hx)) _).bind fun _ _ => .ok trivial

/-- Each added slot is emitted once, and its header is still in the table: taking the header
    of one slot leaves those of the others. -/
theorem inserts_agrees {length : ℕ} {slots : List (Slot × ℕ)} {added : List (Option Header)}
    (hlength : slots.length ≤ length) (hnodup : (slots.map Prod.fst).Nodup)
    (hpresent : ∀ i, .added i ∈ slots.map Prod.fst → added[i]?.join.isSome) :
    Agrees (fun _ => True) (inserts length slots added) (Edits.inserts length slots added) := by
  induction slots generalizing added with
  | nil => exact .ok trivial
  | cons x slots ih =>
    obtain ⟨slot, position⟩ := x
    obtain ⟨hfresh, hrest⟩ := List.nodup_cons.mp hnodup
    have hle : slots.length ≤ length := (Nat.le_succ _).trans hlength
    cases slot with
    | original k =>
      exact ih hle hrest fun i hi => hpresent i (List.mem_cons_of_mem _ hi)
    | added k =>
      obtain ⟨header, hheader⟩ := Option.isSome_iff_exists.mp (hpresent k List.mem_cons_self)
      have hentry : added[k]? = some (some header) := Option.join_eq_some_iff.mp hheader
      have hin : k < added.length := (List.getElem?_eq_some_iff.mp hentry).1
      -- No slot occurs twice, so the other headers are still to be taken.
      have hothers : ∀ i, Slot.added i ∈ slots.map Prod.fst →
          (added.set k none)[i]?.join.isSome := by
        intro i hi
        have hne : k ≠ i := by
          rintro rfl
          exact hfresh hi
        rw [List.getElem?_set_ne hne]
        exact hpresent i (List.mem_cons_of_mem _ hi)
      unfold inserts Edits.inserts
      rw [index, hheader, hentry]
      show Agrees _ (store added k none >>= _) (Edits.inserts length slots _ >>= _)
      rw [store_of_lt hin]
      show Agrees _ (pred length >>= _) _
      rw [pred_of_pos (lt_of_lt_of_le (Nat.succ_pos _) hlength)]
      exact (ih hle hrest hothers).bind fun _ _ => .ok trivial

/-- The deletion of a recipient finds it. -/
theorem recipientDelete_agrees {session : Session} {i : ℕ}
    (hi : i < session.message.recipients.length) :
    Agrees (fun _ => True) (recipientDelete session i) (Edits.recipientDelete session i) := by
  unfold recipientDelete Edits.recipientDelete
  rw [index_of_lt hi, List.getElem?_eq_getElem hi]
  exact (text_agrees _).bind fun _ _ => .ok trivial

/-- An address is read without a panic. -/
theorem milter_safe (a : Address) (allowNull : Bool) : (a.milter allowNull).Safe := by
  have haddress : (a.milterAddress allowNull).Safe := by
    unfold Address.milterAddress
    split
    · exact .ok _
    · exact .ite (fun _ => .ok _) fun _ => .error rfl
  have hparameter : ∀ p, (Address.parameterText p).Safe := by
    rintro ⟨name, value⟩
    unfold Address.parameterText
    cases value with
    | string s => exact .bind (.ok s) fun _ => .bind (.rejectIf _ rfl) fun _ => .pure _
    | null => exact .bind (.ok []) fun _ => .bind (.rejectIf _ rfl) fun _ => .pure _
    | _ => exact .error rfl
  exact .bind haddress fun _ => .bind (.mapM hparameter _) fun _ => .pure _

/-- **The edits miss no bound when they are resolved.** -/
theorem modifications_agrees {session : Session} {e : Edits} (h : EditsWf session e)
    (hfew : session.message.headers.length < 2 ^ 32) :
    Agrees (fun _ => True) (modifications session e) (e.modifications session) := by
  have hedits : ∀ x ∈ e.headerEdits, x.1 < session.message.headers.length := by
    intro x hx
    rw [Edits.headerEdits, List.mem_insertionSort] at hx
    rcases List.mem_append.mp hx with hx | hx
    · obtain ⟨c, hc, rfl⟩ := List.mem_map.mp hx
      exact h.changes c hc
    · obtain ⟨k, hk, rfl⟩ := List.mem_map.mp hx
      exact h.headers.deleted_lt k hk
  have hslots : e.headers.slots.zipIdx.map Prod.fst = e.headers.slots := List.zipIdx_map_fst _ _
  have hsender : (Edits.senderChange e.envelopeFrom).Safe := by
    unfold Edits.senderChange
    split
    · exact .ok _
    · exact .bind (milter_safe _ _) fun _ => .pure _
  have hadd : ∀ a, (Edits.recipientAdd a).Safe :=
    fun a => .bind (milter_safe a false) fun _ => .pure _
  refine (changes_agrees hfew hedits []).bind fun changed _ => ?_
  have hinserts : Agrees (fun _ => True)
      (inserts e.headers.slots.length e.headers.slots.zipIdx e.headers.added)
      (Edits.inserts e.headers.slots.length e.headers.slots.zipIdx e.headers.added) := by
    apply inserts_agrees
    · exact List.length_zipIdx.le
    · rw [hslots]
      exact h.headers.nodup
    · intro i hi
      rw [hslots] at hi
      exact (h.headers.present i).mp hi
  refine hinserts.bind fun inserted _ => ?_
  refine (Agreement.Agrees.refl hsender).bind fun sender _ => ?_
  have hdeletes : Agrees (fun deletes => ∀ m ∈ deletes, True)
      (e.recipients.deleted.mapM (recipientDelete session)) _ :=
    .mapM fun k hk => recipientDelete_agrees (h.recipients.deleted_lt k hk)
  refine hdeletes.bind fun deletes _ => ?_
  have hadds : Result.Safe ((e.recipients.added.filterMap id).mapM Edits.recipientAdd) :=
    .mapM hadd _
  exact (Agreement.Agrees.refl hadds).bind fun adds _ => .ok trivial

/-! ### The response -/

/-- `value[key] = v`: an object, or null which becomes one. -/
def setKey (key : Str) (value : Json) : Json → Result Json
  | .object fields => .ok (.object (Json.insertField key value fields))
  | .null => .ok (.object (Json.insertField key value []))
  | _ => .error (.panic "not an object")

/-- Set a part of the SMTP response, which starts out as an empty object. -/
def setResponse (path : Str) (value response : Json) : Result Json := do
  let response := if response.isNull then .object [] else response
  rejectIf (¬ response.isObject) (.invalid "SMTP response object")
  let part ← expect (path.splitOn (byte '/')).getLast? "path"
  setKey part value response

/-- Apply a `set` operation. -/
def applySet (b64 : Base64) (session : Session) (hasRaw : Bool) (a : Hooks.Answered)
    (op : SetOp) : Result Hooks.Answered :=
  if op.path = ascii "/rawMessage" then do
    rejectIf a.raw.isSome (.invalid "duplicate raw message replacement")
    let raw ← rawReplacement b64 op.value session
    return { a with raw := some raw }
  else if hasRaw && inMessage op.path then .ok a
  else if op.path = ascii "/action" then do
    let action ← okOr op.value.asStr (.invalid "action type")
    return { a with action }
  else if op.path = ascii "/response" then .ok { a with response := op.value }
  else if isResponsePart op.path then do
    let response ← setResponse op.path op.value a.response
    return { a with response }
  else do
    let edits ← a.edits.set session op.path op.value
    return { a with edits }

/-- Apply an `add` operation. -/
def applyAdd (session : Session) (hasRaw : Bool) (edits : Edits) (op : AddOp) : Result Edits :=
  if hasRaw && inMessage op.path then .ok edits else add session op edits

/-- Apply a `delete` operation. -/
def applyDelete (hasRaw : Bool) (edits : Edits) (op : DeleteOp) : Result Edits :=
  if hasRaw && inMessage op.path then .ok edits else delete op.path edits

/-- The decision of a hook response. -/
def translate (b64 : Base64) (value : Json) (session : Session) (stage : Stage) :
    Result Decision := do
  let ops ← okOr (Operations.fromValue value) (.invalid "hook response schema")
  rejectIf (session.limits.modifications < ops.sets.length + ops.adds.length + ops.deletes.length)
    (.limit "hook operations")
  let a ← ops.sets.foldlM (applySet b64 session ops.hasRaw) { edits := Edits.new session }
  let edits ← ops.adds.foldlM (applyAdd session ops.hasRaw) a.edits
  let edits ← ops.deletes.foldlM (applyDelete ops.hasRaw) edits
  rejectIf (stage ≠ .endMessage ∧ (¬ edits.isEmpty ∨ a.raw.isSome))
    (.invalid "message and envelope edits require the data stage")
  let resolved ← modifications session edits
  let resolved := resolved ++ a.raw.getD []
  let _ ← resolved.mapM fun m => m.frames session.leadingSpace
  let (verdict, extra) ← verdict a.action a.response stage
  return { verdict, modifications := resolved ++ extra }

/-- The last part of a split is what follows the last separator. -/
theorem getLast?_splitOn (sep : UInt8) (s : Str) :
    (s.splitOn sep).getLast? = some (afterLast sep s) := by
  unfold afterLast
  by_cases hsep : sep ∈ s
  · obtain ⟨after, before, hreverse, hfree⟩ :=
      List.eq_append_cons_of_mem (List.mem_reverse.mpr hsep)
    have hs : s = before.reverse ++ sep :: after.reverse := by
      rw [← s.reverse_reverse, hreverse]
      simp
    -- `rsplit` reads backwards to the last separator, `split` ends with what follows it.
    have htake : s.reverse.takeWhile (· ≠ sep) = after := by
      rw [hreverse, List.takeWhile_append_of_pos]
      · simp
      · intro c hc
        exact decide_eq_true fun h => hfree (h ▸ hc)
    have hlast : after.reverse.splitOn sep = [after.reverse] :=
      List.splitOn_eq_singleton fun h => hfree (List.mem_reverse.mp h)
    rw [htake, hs, List.splitOn_append_cons_self, hlast, List.getLast?_concat]
  · have htake : s.reverse.takeWhile (· ≠ sep) = s.reverse := by
      refine List.takeWhile_eq_self_iff.mpr fun c hc => ?_
      exact decide_eq_true fun h => hsep (h ▸ List.mem_reverse.mp hc)
    rw [htake, List.reverse_reverse, List.splitOn_eq_singleton hsep]
    rfl

/-- A key is set in an object. -/
theorem setResponse_agrees (path : Str) (value response : Json) :
    Agrees (fun _ => True) (setResponse path value response)
      (Hooks.setResponse path value response) := by
  refine (rejectIf_agrees _ rfl).bind fun _ hobject => ?_
  rw [getLast?_splitOn]
  show Agrees _ (setKey _ value _) _
  generalize (if response.isNull then Json.object [] else response) = v at hobject ⊢
  -- Indexing a JSON value that is no object panics; the check before has ruled it out.
  cases v with
  | object fields => exact Agreement.Agrees.ok (P := fun _ => True) trivial
  | _ => exact absurd Bool.false_ne_true hobject

/-- A `set` stays within its lists. -/
theorem applySet_agrees {b64 : Base64} {session : Session}
    (hfew : session.message.headers.length < 2 ^ 32) {a : Hooks.Answered}
    (h : EditsWf session a.edits) (hasRaw : Bool) (op : SetOp) :
    Agrees (fun a' => EditsWf session a'.edits) (applySet b64 session hasRaw a op)
      (Hooks.applySet b64 session hasRaw a op) := by
  refine .ite (fun _ => ?_) fun _ => .ite (fun _ => .ok h) fun _ => .ite (fun _ => ?_) fun _ =>
    .ite (fun _ => .ok h) fun _ => .ite (fun _ => ?_) fun _ => ?_
  · refine (rejectIf_agrees _ rfl).bind fun _ _ => ?_
    exact (rawReplacement_agrees b64 op.value hfew).bind fun _ _ => .ok h
  · exact (okOr_agrees _ rfl).bind fun _ _ => .ok h
  · exact (setResponse_agrees _ _ _).bind fun _ _ => .ok h
  · exact (set_agrees h op).bind fun _ hedits => .ok hedits

/-- A verdict is read without a panic. -/
theorem verdict_safe (action : Str) (response : Json) (stage : Stage) :
    (verdict action response stage).Safe := by
  have hcode : (replyCode response).Safe := by
    unfold replyCode
    split
    · exact .bind (.okOr _ rfl) fun _ => .ite (fun _ => .pure _) fun _ => .error rfl
    · exact .ok _
  have henhanced : (replyEnhanced response).Safe := by
    unfold replyEnhanced
    split
    · exact .ok _
    · exact .bind (.okOr _ rfl) fun _ => .pure _
    · exact .ok _
  have hmessage : (replyMessage response).Safe := by
    unfold replyMessage
    split
    · exact .okOr _ rfl
    · exact .ok _
  refine .ite (fun _ => .ok _) fun _ => .ite (fun _ => ?_) fun _ => .ite (fun _ => .ok _) fun _ =>
    .ite (fun _ => .ok _) fun _ => .ite (fun _ => .ok _) fun _ => .error rfl
  exact .bind (.rejectIf _ rfl) fun _ => .bind hcode fun _ => .bind henhanced fun _ =>
    .bind hmessage fun _ => .pure _

/-- **No index of a translation is out of bounds**, and no translation panics. -/
theorem translate_agrees (b64 : Base64) (value : Json) {session : Session}
    (hfew : session.message.headers.length < 2 ^ 32) (stage : Stage) :
    Agrees (fun _ => True) (translate b64 value session stage)
      (Hooks.translate b64 value session stage) := by
  refine (okOr_agrees _ rfl).bind fun ops _ => (rejectIf_agrees _ rfl).bind fun _ _ => ?_
  have hsets : Agrees (fun a => EditsWf session a.edits)
      (ops.sets.foldlM (applySet b64 session ops.hasRaw) { edits := Edits.new session })
      (ops.sets.foldlM (Hooks.applySet b64 session ops.hasRaw) { edits := Edits.new session }) :=
    Agreement.Agrees.foldlM (EditsWf.new session) fun a op _ ha => applySet_agrees hfew ha _ op
  refine hsets.bind fun a ha => ?_
  have hadds : Agrees (EditsWf session)
      (ops.adds.foldlM (applyAdd session ops.hasRaw) a.edits)
      (ops.adds.foldlM (Hooks.applyAdd session ops.hasRaw) a.edits) :=
    Agreement.Agrees.foldlM ha fun e op _ he => .ite (fun _ => .ok he) fun _ => add_agrees he op
  refine hadds.bind fun added hadded => ?_
  have hdeletes : Agrees (EditsWf session)
      (ops.deletes.foldlM (applyDelete ops.hasRaw) added)
      (ops.deletes.foldlM (Hooks.applyDelete ops.hasRaw) added) :=
    Agreement.Agrees.foldlM hadded fun e op _ he =>
      .ite (fun _ => .ok he) fun _ => delete_agrees he op.path
  refine hdeletes.bind fun edits hedits => (rejectIf_agrees _ rfl).bind fun _ _ => ?_
  refine (modifications_agrees hedits hfew).bind fun resolved _ => ?_
  have hframes : Result.Safe ((resolved ++ a.raw.getD []).mapM fun m =>
      m.frames session.leadingSpace) :=
    .mapM (fun m => Session.frames_safe _ m) _
  refine (Agreement.Agrees.refl hframes).bind fun _ _ => ?_
  exact (Agreement.Agrees.refl (verdict_safe _ _ _)).bind fun _ _ => .ok trivial

/-! ### The request -/

/-- `str::is_char_boundary`. -/
def isCharBoundary (s : Str) (i : ℕ) : Bool :=
  match s[i]? with
  | some c => i = 0 || c < 128 || 192 ≤ c
  | none => i = s.length

/-- `&s[i..]` of a text. -/
def textFrom (s : Str) (i : ℕ) : Result Str :=
  if isCharBoundary s i then .ok (s.drop i) else .error (.panic "char boundary")

/-- Address and EHLO name of the client. -/
def client (session : Session) (connection : Connection) : Result Json := do
  let macroIp ← macroText session "client_addr"
  let connectionIp ← optionalText connection.address
  let ehlo ← optionalText session.helo
  let fields := Json.ofFields
    [("ip", .ofText (macroIp.or connectionIp)),
      ("port", .ofU64 (connection.port.map UInt16.toNat)), ("ehlo", .ofText ehlo)]
  let ptr ← macroText session "client_ptr"
  let fields ← match ptr with
    | some ptr => setKey "ptr" (.string ptr) fields
    | none => .ok fields
  let connections ← macroNumber session "client_connections"
  match connections with
  | .number n => setKey "activeConnections" (.number n) fields
  | _ => return fields

/-- The value of one negotiated property. -/
def property (b64 : Base64) (timestamp : Str) (session : Session) (connection : Connection)
    (stage : Stage) (property : Str) : Result Json :=
  if property = ascii "/client" then client session connection
  else Hooks.property b64 timestamp session connection stage property

/-- The hook request of a stage, from the negotiated properties only. -/
def request (b64 : Base64) (timestamp : Str) (session : Session) (stage : Stage)
    (properties : List Str) : Result Json := do
  let connection ← okOr session.connection (.invalid "missing connection")
  let body ← properties.foldlM (fun body p => do
    let value ← property b64 timestamp session connection stage p
    let key ← textFrom p 1
    return Json.insertField key value body) []
  return .object body

/-- A key is set in the object of the client. -/
theorem client_eq (session : Session) (connection : Connection) :
    client session connection = Hooks.client session connection := by
  unfold client Hooks.client
  cases macroText session "client_addr" with
  | error e => rfl
  | ok macroIp =>
    cases optionalText connection.address with
    | error e => rfl
    | ok connectionIp =>
      cases optionalText session.helo with
      | error e => rfl
      | ok ehlo =>
        cases macroText session "client_ptr" with
        | error e => rfl
        | ok ptr =>
          cases ptr with
          | none =>
            cases macroNumber session "client_connections" with
            | error e => rfl
            | ok connections => cases connections <;> rfl
          | some ptr =>
            cases macroNumber session "client_connections" with
            | error e => rfl
            | ok connections => cases connections <;> rfl

/-- Only an offered property has a value. -/
theorem property_offered {b64 : Base64} {timestamp : Str} {session : Session}
    {connection : Connection} {stage : Stage} {p : Str} {v : Json}
    (h : Hooks.property b64 timestamp session connection stage p = .ok v) :
    p ∈ offeredProperties := by
  by_contra hp
  simp only [offeredProperties, List.mem_cons, List.not_mem_nil, or_false, not_or] at hp
  obtain ⟨h1, h2, h3, h4, h5, h6, h7, h8, h9, h10, h11⟩ := hp
  rw [Hooks.property, if_neg h1, if_neg h2, if_neg h3, if_neg h4, if_neg h5, if_neg h6, if_neg h7,
    if_neg h8, if_neg h9, if_neg h10, if_neg h11] at h
  cases h

/-- The slash of an offered property is a character. -/
theorem textFrom_offered {p : Str} (h : p ∈ offeredProperties) :
    textFrom p 1 = .ok (p.drop 1) := by
  -- The first byte of every offered property is an ASCII slash.
  have hall : ∀ p ∈ offeredProperties, isCharBoundary p 1 = true := by decide
  exact if_pos (hall p h)

/-- The properties are built without an index. -/
theorem property_eq (b64 : Base64) (timestamp : Str) (session : Session)
    (connection : Connection) (stage : Stage) (p : Str) :
    property b64 timestamp session connection stage p =
      Hooks.property b64 timestamp session connection stage p := by
  unfold property
  by_cases hp : p = ascii "/client"
  · rw [if_pos hp, client_eq, Hooks.property, hp]
    rfl
  · rw [if_neg hp]

/-- **No index of a request is out of bounds**, and no request panics. -/
theorem request_agrees (b64 : Base64) (timestamp : Str) {session : Session} {stage : Stage}
    (properties : List Str) (hsender : stage = .endMessage → session.message.sender.isSome) :
    Agrees (fun _ => True) (request b64 timestamp session stage properties)
      (Hooks.request b64 timestamp session stage properties) := by
  refine (okOr_agrees _ rfl).bind fun connection _ => ?_
  have hproperty : ∀ p,
      (Hooks.property b64 timestamp session connection stage p).Safe := by
    intro p e he
    -- What can fail is text that is no UTF-8 and a property that is not offered.
    rcases property_failsWith p hsender e he with rfl | rfl
    · rfl
    · rfl
  have hloop : Agrees (fun _ => True)
      (properties.foldlM (fun body p => do
        let value ← property b64 timestamp session connection stage p
        let key ← textFrom p 1
        return Json.insertField key value body) [])
      (properties.foldlM (fun body p => do
        let value ← Hooks.property b64 timestamp session connection stage p
        return Json.insertField (p.drop 1) value body) []) := by
    refine .foldlM trivial fun body p _ _ => ?_
    rw [property_eq]
    refine (Agreement.Agrees.refl (hproperty p)).bind fun value hvalue => ?_
    rw [textFrom_offered (property_offered hvalue)]
    exact .ok trivial
  exact hloop.bind fun _ _ => .ok trivial

end Checked

/-! ### No input reaches a panic -/

namespace Session

/-- **No input reaches a panic.**  Every call of a run is answered or refused; its decoder and
    its checks of text miss no bound; and at every callback reached, neither a translation nor
    a request does. -/
theorem never_panics {s : Session} (hs : s.Initial) (hheaders : s.limits.headers < 2 ^ 32)
    (calls : List Call) :
    (∀ a ∈ (Machine.run call s calls).1, a.Safe) ∧
    (∀ f, Checked.decode f = Command.decode f) ∧
    (∀ value, Checked.headerValue value = headerValue value) ∧
    (∀ code enhanced, Checked.enhancedCode code enhanced = .ok (enhancedCode code enhanced)) ∧
    ∀ stage, (Machine.after call s calls).pending = some stage →
      (∀ b64 value,
        Checked.translate b64 value (Machine.after call s calls) stage =
          translate b64 value (Machine.after call s calls) stage ∧
        (Checked.translate b64 value (Machine.after call s calls) stage).Safe) ∧
      ∀ b64 timestamp properties, (∀ p ∈ properties, p ∈ offeredProperties) →
        Checked.request b64 timestamp (Machine.after call s calls) stage properties =
          request b64 timestamp (Machine.after call s calls) stage properties ∧
        (Checked.request b64 timestamp (Machine.after call s calls) stage properties).Safe := by
  have hreach : s.Reachable := .init hs
  obtain ⟨hend, hlimits⟩ := hreach.after calls
  have hfew : (Machine.after call s calls).message.headers.length < 2 ^ 32 :=
    lt_of_le_of_lt (hlimits ▸ hend.headers_le) hheaders
  refine ⟨run_safe hreach calls, Checked.decode_eq, Checked.headerValue_eq,
    Checked.enhancedCode_eq, fun stage hpending => ⟨fun b64 value => ?_, ?_⟩⟩
  · have h := Checked.translate_agrees b64 value hfew stage
    exact ⟨h.same, h.same ▸ h.error⟩
  · intro b64 timestamp properties _
    -- The request expects a sender at EOM, where the state always has one.
    have hsender : stage = .endMessage →
        (Machine.after call s calls).message.sender.isSome := by
      rintro rfl
      rw [hend.valid.sender, hend.valid.awaits _ hpending]
      rfl
    have h := Checked.request_agrees b64 timestamp properties hsender
    exact ⟨h.same, h.same ▸ h.error⟩

/-- A session at the end of a message with two headers. -/
def sampleEnd : Session := Sample.atEnd ["<b>"] [("A", "1"), ("B", "2")]

/-- The session of the sample takes every answer without a panic. -/
theorem never_panics_at_end :
    sampleEnd.pending = some .endMessage ∧
      (∀ value, (Checked.translate Sample.base64 value sampleEnd .endMessage).Safe) ∧
      (Checked.request Sample.base64 "now" sampleEnd .endMessage offeredProperties).Safe := by
  have hpending : sampleEnd.pending = some .endMessage := by decide +kernel
  obtain ⟨-, -, -, -, hcallback⟩ :=
    never_panics (Sample.session_initial [.endMessage]) (by decide) _
  obtain ⟨htranslate, hrequest⟩ := hcallback _ hpending
  exact ⟨hpending, fun value => (htranslate _ value).2, (hrequest _ _ _ fun _ hp => hp).2⟩

end Session

end MtaHooks
