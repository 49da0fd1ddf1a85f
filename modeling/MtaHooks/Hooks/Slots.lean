import MtaHooks.Hooks.Follows

namespace MtaHooks

open ListEdits

/-!
# The slot lists of the edits

A sequence of `Edits::add` and `Edits::delete` calls edits the headers and the recipients by
position.  The slots, the table of additions and the log of deletes together stand for the
list that plain inserts and removals leave.

* `Refines` — what a slot list, its table and its log say about the list it stands for;
* `slots_refine` — any accepted sequence of calls refines both lists.
-/

namespace Hooks

open ListEdits.SlotList

/-! ### Sequences of calls -/

/-- A call that edits a list by position. -/
inductive EditCall
  | add (op : AddOp)
  | delete (op : DeleteOp)

/-- Run one call. -/
def Edits.run (session : Session) (e : Edits) : EditCall → Result Edits
  | .add op => e.add session op
  | .delete op => e.delete op.path

/-- An element of an edited list: one of the session, or one of a response. -/
abbrev Element (α β : Type) := α ⊕ β

variable {α β : Type}

/-- The call on a plain list of the elements of an array. -/
def editList (array : Str) (read : Json → Option β) (l : List (Element α β)) :
    EditCall → List (Element α β)
  | .add op => Scanner.addTo array (fun v => (read v).map .inr) l op
  | .delete op => Scanner.deleteFrom array l op

/-- The slots of an array of at most `limit` elements stand for the list `l`, edited from
    `originals`. -/
structure Refines (limit : ℕ) (originals : List α) (e : SlotList β) (l : List (Element α β)) :
    Prop where
  reads : e.slots.map (e.resolve (originals.map Sum.inl) Sum.inr) = l.map some
  added : ∀ j, (e.addedAt j).isSome ↔ .added j ∈ e.slots
  once : ∀ j, .added j ∈ e.slots → e.slots.count (.added j) = 1
  partitioned : ∀ i, e.slots.count (.original i) + e.deleted.count i =
    if i < originals.length then 1 else 0
  ordered : (e.slots.filterMap Slot.original?).Pairwise (· < ·)
  bounded : e.slots.length ≤ limit

/-! ### One call -/

/-- An accepted `add` inserts below the limits only. -/
theorem Edits.add_below {session : Session} {op : AddOp} {e e' : Edits}
    (h : e.add session op = .ok e') :
    (e'.headers = e.headers ∨ e.headers.slots.length < session.limits.headers) ∧
      (e'.recipients = e.recipients ∨
        e.recipients.slots.length < session.limits.recipients) := by
  rcases Edits.add_cases h with ⟨-, hlimit, _, _, -, -, rfl⟩ | ⟨-, hlimit, _, _, -, -, rfl⟩
  · exact ⟨.inr hlimit, .inl rfl⟩
  · exact ⟨.inl rfl, .inr hlimit⟩

/-- What every call keeps of an array: the slots follow the plain list, within the limit. -/
def Keeps (limit : ℕ) (originals : List α) (e : SlotList β) (l : List (Element α β)) : Prop :=
  Follows originals.length (originals.map Sum.inl) Sum.inr e l ∧ e.slots.length ≤ limit

/-- Unedited slots keep the originals. -/
theorem Keeps.ofLength {limit : ℕ} {originals : List α} (h : originals.length ≤ limit) :
    Keeps limit originals (.ofLength originals.length : SlotList β)
      (originals.map Sum.inl) := by
  have hshows := @Shows.ofLength _ β (originals.map (Sum.inl : α → Element α β)) Sum.inr
  rw [List.length_map] at hshows
  refine ⟨⟨.ofLength _, hshows⟩, ?_⟩
  simpa [SlotList.ofLength] using h

/-- What is kept is a refinement of the edited list. -/
theorem Keeps.refines {limit : ℕ} {originals : List α} {e : SlotList β}
    {l : List (Element α β)} (h : Keeps limit originals e l) : Refines limit originals e l := by
  obtain ⟨⟨hwf, hshows⟩, hbounded⟩ := h
  refine ⟨hshows, fun j => (hwf.present j).symm, fun j hj => ?_, hwf.count_original, hwf.ordered,
    hbounded⟩
  rw [hwf.count_added, if_pos ((hwf.present j).mp hj)]

/-- An addition is kept. -/
theorem Keeps.add {limit : ℕ} {originals : List α} {e e' : SlotList β}
    {l : List (Element α β)} {array : Str} {read : Json → Option β} {op : AddOp}
    (h : Keeps limit originals e l) (hadds : Adds array read op e e')
    (hbelow : e' = e ∨ e.slots.length < limit) :
    Keeps limit originals e' (editList array read l (.add op)) := by
  refine ⟨hadds.follows h.1, ?_⟩
  rcases hbelow with hsame | hlt
  · rw [hsame]
    exact h.2
  · have hgrown := hadds.length_le
    omega

/-- A deletion is kept. -/
theorem Keeps.delete {limit : ℕ} {originals : List α} {e e' : SlotList β}
    {l : List (Element α β)} {array : Str} {op : DeleteOp} (read : Json → Option β)
    (h : Keeps limit originals e l) (hdeletes : Deletes array op e e') :
    Keeps limit originals e' (editList array read l (.delete op)) := by
  refine ⟨hdeletes.follows h.1, ?_⟩
  have hshrunk := hdeletes.length_le
  have hfits := h.2
  omega

/-- **One call** keeps the headers. -/
theorem Edits.run_headers {session : Session} {e e' : Edits} {c : EditCall}
    {l : List (Element (Bytes × Bytes) Header)} (h : e.run session c = .ok e')
    (hl : Keeps session.limits.headers session.message.headers e.headers l) :
    Keeps session.limits.headers session.message.headers e'.headers
      (editList "/message/headers" Header.fromValue l c) := by
  cases c with
  | add op => exact hl.add (Edits.add_ok h).1 (Edits.add_below h).1
  | delete op => exact hl.delete Header.fromValue (Edits.delete_ok h).1

/-- **One call** keeps the recipients. -/
theorem Edits.run_recipients {session : Session} {e e' : Edits} {c : EditCall}
    {l : List (Element EnvelopeAddress Address)} (h : e.run session c = .ok e')
    (hl : Keeps session.limits.recipients session.message.recipients e.recipients l) :
    Keeps session.limits.recipients session.message.recipients e'.recipients
      (editList "/envelope/to" Address.fromValue l c) := by
  cases c with
  | add op => exact hl.add (Edits.add_ok h).2.1 (Edits.add_below h).2
  | delete op => exact hl.delete Address.fromValue (Edits.delete_ok h).2.1

/-! ### All calls -/

/-- **The slot lists refine the edited lists**, for a session within its limits and any sequence
    of calls that all succeed. -/
theorem slots_refine {session : Session} {calls : List EditCall} {e : Edits}
    (hheaders : session.message.headers.length ≤ session.limits.headers)
    (hrecipients : session.message.recipients.length ≤ session.limits.recipients)
    (h : calls.foldlM (Edits.run session) (.new session) = .ok e) :
    Refines session.limits.headers session.message.headers e.headers
        (calls.foldl (editList "/message/headers" Header.fromValue)
          (session.message.headers.map Sum.inl)) ∧
      Refines session.limits.recipients session.message.recipients e.recipients
        (calls.foldl (editList "/envelope/to" Address.fromValue)
          (session.message.recipients.map Sum.inl)) := by
  have hstart : Keeps session.limits.headers session.message.headers
      (Edits.new session).headers (session.message.headers.map Sum.inl) := .ofLength hheaders
  have hstart' : Keeps session.limits.recipients session.message.recipients
      (Edits.new session).recipients (session.message.recipients.map Sum.inl) :=
    .ofLength hrecipients
  constructor
  · apply Keeps.refines
    exact Result.foldlM_simulates (R := fun (e : Edits) l => Keeps _ _ e.headers l) h hstart
      fun _ _ _ _ _ hl hstep => Edits.run_headers hstep hl
  · apply Keeps.refines
    exact Result.foldlM_simulates (R := fun (e : Edits) l => Keeps _ _ e.recipients l) h hstart'
      fun _ _ _ _ _ hl hstep => Edits.run_recipients hstep hl

/-- A header inserted between two, the first of them deleted, a recipient added and deleted. -/
def sampleCalls : List EditCall :=
  [.add ⟨"/message/headers", Sample.headerObject "X" "9", some 1⟩,
    .delete ⟨"/message/headers/0"⟩,
    .add ⟨"/envelope/to", .ofFields [("address", .string "c")], none⟩,
    .delete ⟨"/envelope/to/1"⟩]

/-- An addition at the end and a deletion at the front. -/
theorem slots_refine_at_sampleCalls :
    ∃ e, sampleCalls.foldlM (Edits.run (Sample.atEnd ["<b>"] [("A", "1"), ("B", "2")]))
        (.new (Sample.atEnd ["<b>"] [("A", "1"), ("B", "2")])) = .ok e ∧
      Refines 10000 [(ascii "A", ascii "1"), (ascii "B", ascii "2")] e.headers
        [.inr ⟨"X", "9"⟩, .inl (ascii "B", ascii "2")] := by
  have hsome : (sampleCalls.foldlM
      (Edits.run (Sample.atEnd ["<b>"] [("A", "1"), ("B", "2")]))
      (.new (Sample.atEnd ["<b>"] [("A", "1"), ("B", "2")]))).toOption.isSome = true := by
    decide +kernel
  cases hrun : sampleCalls.foldlM
      (Edits.run (Sample.atEnd ["<b>"] [("A", "1"), ("B", "2")]))
      (.new (Sample.atEnd ["<b>"] [("A", "1"), ("B", "2")])) with
  | error error =>
    rw [hrun] at hsome
    exact nomatch hsome
  | ok e =>
    have hrefines := (slots_refine (by decide +kernel) (by decide +kernel) hrun).1
    have hlimit : (Sample.atEnd ["<b>"] [("A", "1"), ("B", "2")]).limits.headers = 10000 := by
      decide +kernel
    have hheaders : (Sample.atEnd ["<b>"] [("A", "1"), ("B", "2")]).message.headers =
        [(ascii "A", ascii "1"), (ascii "B", ascii "2")] := by decide +kernel
    have hlist : sampleCalls.foldl (editList "/message/headers" Header.fromValue)
        ([(ascii "A", ascii "1"), (ascii "B", ascii "2")].map Sum.inl) =
        [.inr ⟨"X", "9"⟩, .inl (ascii "B", ascii "2")] := by decide +kernel
    rw [hlimit, hheaders, hlist] at hrefines
    exact ⟨e, rfl, hrefines⟩

end Hooks

end MtaHooks
