import MtaHooks.Hooks.Follows

namespace MtaHooks

open ListEdits

/-!
# The parts that the modifications of a response edit

Each kind of edit becomes modifications of one part of the mail, so what an accepted response
does to one part is what the edits of that part do.

* `Translated.foldl_recipients`, `Translated.foldl_headers` and `Translated.foldl_body` — the
  modifications that count for each part.
-/

namespace Hooks

open Edits

/-! ### The part of each kind of edit -/

/-- Changes and deletions of headers are of their part. -/
theorem changes_part {headers : List (Bytes × Bytes)} {edits : List (ℕ × Option Str)}
    {seen : List ℕ} {ms : List Modification} (h : changes headers edits seen = .ok ms) :
    ∀ m ∈ ms, Mta.part m = .headers := by
  induction edits generalizing seen ms with
  | nil =>
    obtain rfl := Except.ok.inj h
    exact fun _ hm => nomatch hm
  | cons edit edits ih =>
    obtain ⟨_, -, h⟩ := Result.bind_ok_iff.mp h
    obtain ⟨⟨name, occurrence⟩, -, h⟩ := Result.bind_ok_iff.mp h
    obtain ⟨ms', hms, h⟩ := Result.bind_ok_iff.mp h
    obtain rfl := Except.ok.inj h
    intro m hm
    rcases List.mem_cons.mp hm with rfl | hm
    · rfl
    · exact ih hms m hm

/-- Insertions of headers are of their part. -/
theorem inserts_part {length : ℕ} {slots : List (Slot × ℕ)} {added : List (Option Header)}
    {ms : List Modification} (h : inserts length slots added = .ok ms) :
    ∀ m ∈ ms, Mta.part m = .headers := by
  induction slots generalizing added ms with
  | nil =>
    obtain rfl := Except.ok.inj h
    exact fun _ hm => nomatch hm
  | cons slot slots ih =>
    obtain ⟨slot, position⟩ := slot
    cases slot with
    | original i => exact ih h
    | added i =>
      obtain ⟨header, -, h⟩ := Result.bind_ok_iff.mp h
      obtain ⟨ms', hms, h⟩ := Result.bind_ok_iff.mp h
      obtain rfl := Except.ok.inj h
      intro m hm
      rcases List.mem_cons.mp hm with rfl | hm
      · unfold insertion
        split <;> rfl
      · exact ih hms m hm

/-- A new sender is of its part. -/
theorem senderChange_part {sender : Option Address} {ms : List Modification}
    (h : senderChange sender = .ok ms) : ∀ m ∈ ms, Mta.part m = .sender := by
  cases sender with
  | none =>
    obtain rfl := Except.ok.inj h
    exact fun _ hm => nomatch hm
  | some sender =>
    obtain ⟨⟨address, parameters⟩, -, h⟩ := Result.bind_ok_iff.mp h
    obtain rfl := Except.ok.inj h
    intro m hm
    obtain rfl := List.mem_singleton.mp hm
    rfl

/-- The deletion of a recipient is of its part. -/
theorem recipientDelete_part {session : Session} {i : ℕ} {m : Modification}
    (h : recipientDelete session i = .ok m) : Mta.part m = .recipients := by
  obtain ⟨_, -, h⟩ := Result.bind_ok_iff.mp h
  obtain ⟨_, -, h⟩ := Result.bind_ok_iff.mp h
  obtain rfl := Except.ok.inj h
  rfl

/-- A new recipient is of its part. -/
theorem recipientAdd_part {added : Address} {m : Modification} (h : recipientAdd added = .ok m) :
    Mta.part m = .recipients := by
  obtain ⟨⟨_, _⟩, -, h⟩ := Result.bind_ok_iff.mp h
  obtain rfl := Except.ok.inj h
  rfl

/-- The deletions of a raw message are of headers. -/
theorem rawDelete_part {original : List (Bytes × Bytes)} {i : ℕ} {m : Modification}
    (h : rawDelete original i = .ok m) : Mta.part m = .headers := by
  obtain ⟨_, -, h⟩ := Result.bind_ok_iff.mp h
  obtain ⟨_, -, h⟩ := Result.bind_ok_iff.mp h
  obtain rfl := Except.ok.inj h
  rfl

/-- The field edits of a raw replacement edit the headers. -/
theorem fieldEdits_part {ls : Bool} {original fields : List (Bytes × Bytes)}
    {ms : List Modification} (h : fieldEdits ls original fields = .ok ms) :
    ∀ m ∈ ms, Mta.part m = .headers := by
  obtain ⟨final, hmatch, h⟩ := Result.bind_ok_iff.mp h
  obtain ⟨deletes, hdeletes, h⟩ := Result.bind_ok_iff.mp h
  obtain rfl := Except.ok.inj h
  have hinserted : ∀ m ∈ final.inserted, Mta.part m = .headers := by
    refine Result.foldlM_invariant (P := fun m => ∀ x ∈ m.inserted, Mta.part x = .headers) hmatch
      (fun _ hx => nomatch hx) fun m x _ m' hm hx => ?_
    unfold matchField at hx
    split at hx
    · obtain rfl := Except.ok.inj hx
      exact hm
    · obtain ⟨name, -, hx⟩ := Result.bind_ok_iff.mp hx
      obtain ⟨value, -, hx⟩ := Result.bind_ok_iff.mp hx
      obtain rfl := Except.ok.inj hx
      intro y hy
      rcases List.mem_append.mp hy with hy | hy
      · exact hm y hy
      · obtain rfl := List.mem_singleton.mp hy
        rfl
  intro m hm
  rcases List.mem_append.mp hm with hm | hm
  · obtain ⟨i, -, hi⟩ := Result.mapM_ok_of_mem hdeletes hm
    exact rawDelete_part hi
  · exact hinserted m hm

/-! ### A raw replacement -/

/-- What an accepted raw replacement is made of. -/
theorem rawReplacement_ok {b64 : Base64} {value : Json} {session : Session}
    {ms : List Modification} (h : rawReplacement b64 value session = .ok ms) :
    ∃ raw fields bodyStart edits, decodeRaw b64 session.limits value = .ok raw ∧
      readFields session.limits raw (raw.length + 1) 0 [] = .ok (fields, bodyStart) ∧
      fieldEdits session.leadingSpace session.message.headers
        (fields.map (RawField.field raw)) = .ok edits ∧
      ms = edits ++ if raw.drop bodyStart ≠ session.message.body then
        [.replaceBody (raw.drop bodyStart)] else [] := by
  obtain ⟨raw, hraw, h⟩ := Result.bind_ok_iff.mp h
  obtain ⟨⟨fields, bodyStart⟩, hfields, h⟩ := Result.bind_ok_iff.mp h
  obtain ⟨edits, hedits, h⟩ := Result.bind_ok_iff.mp h
  obtain ⟨_, -, h⟩ := Result.bind_ok_iff.mp h
  exact ⟨raw, fields, bodyStart, edits, hraw, hfields, hedits, (Except.ok.inj h).symm⟩

/-- A raw replacement edits headers and body. -/
theorem rawReplacement_part {b64 : Base64} {value : Json} {session : Session}
    {ms : List Modification} (h : rawReplacement b64 value session = .ok ms) :
    ∀ m ∈ ms, Mta.part m = .headers ∨ Mta.part m = .body := by
  obtain ⟨raw, fields, bodyStart, edits, -, -, hedits, rfl⟩ := rawReplacement_ok h
  intro m hm
  rcases List.mem_append.mp hm with hm | hm
  · exact .inl (fieldEdits_part hedits m hm)
  · split at hm
    · obtain rfl := List.mem_singleton.mp hm
      exact .inr rfl
    · exact nomatch hm

/-- So does the replacement that the loop over `set` collects. -/
theorem sets_part {b64 : Base64} {session : Session} {hasRaw : Bool} {sets : List SetOp}
    {start a : Answered} (h : sets.foldlM (applySet b64 session hasRaw) start = .ok a)
    (hstart : start.raw = none) :
    ∀ m ∈ a.raw.getD [], Mta.part m = .headers ∨ Mta.part m = .body := by
  refine Result.foldlM_invariant
    (P := fun a => ∀ m ∈ a.raw.getD [], Mta.part m = .headers ∨ Mta.part m = .body) h
    (by rw [hstart]; exact fun _ hm => nomatch hm) fun a op _ a' ha hop => ?_
  cases setStep_of_ok hop with
  | raw _ _ hraw => exact rawReplacement_part hraw
  | _ => exact ha

/-! ### The whole response -/

/-- The modifications of edits, kind by kind. -/
structure Resolved (session : Session) (e : Edits)
    (changed inserted sender deletes adds : List Modification) : Prop where
  changed : changes session.message.headers e.headerEdits [] = .ok changed
  inserted : inserts e.headers.slots.length e.headers.slots.zipIdx e.headers.added = .ok inserted
  sender : senderChange e.envelopeFrom = .ok sender
  deletes : e.recipients.deleted.mapM (recipientDelete session) = .ok deletes
  adds : (e.recipients.added.filterMap id).mapM recipientAdd = .ok adds

/-- What the modifications of edits are made of. -/
theorem modifications_ok {session : Session} {e : Edits} {ms : List Modification}
    (h : e.modifications session = .ok ms) :
    ∃ changed inserted sender deletes adds,
      Resolved session e changed inserted sender deletes adds ∧
        ms = changed ++ inserted ++ sender ++ deletes ++ adds := by
  obtain ⟨changed, hchanged, h⟩ := Result.bind_ok_iff.mp h
  obtain ⟨inserted, hinserted, h⟩ := Result.bind_ok_iff.mp h
  obtain ⟨sender, hsender, h⟩ := Result.bind_ok_iff.mp h
  obtain ⟨deletes, hdeletes, h⟩ := Result.bind_ok_iff.mp h
  obtain ⟨adds, hadds, h⟩ := Result.bind_ok_iff.mp h
  exact ⟨changed, inserted, sender, deletes, adds,
    ⟨hchanged, hinserted, hsender, hdeletes, hadds⟩, (Except.ok.inj h).symm⟩

section

variable {session : Session} {e : Edits} {changed inserted sender deletes adds : List Modification}

/-- The resolved deletions are of recipients. -/
theorem Resolved.deletes_part (h : Resolved session e changed inserted sender deletes adds) :
    ∀ m ∈ deletes, Mta.part m = .recipients := by
  intro m hm
  obtain ⟨i, -, hi⟩ := Result.mapM_ok_of_mem h.deletes hm
  exact recipientDelete_part hi

/-- The resolved additions are of recipients. -/
theorem Resolved.adds_part (h : Resolved session e changed inserted sender deletes adds) :
    ∀ m ∈ adds, Mta.part m = .recipients := by
  intro m hm
  obtain ⟨a, -, ha⟩ := Result.mapM_ok_of_mem h.adds hm
  exact recipientAdd_part ha

end

section Translated

variable {b64 : Base64} {session : Session} {stage : Stage} {ops : Operations} {a : Answered}
  {added edits : Edits} {modifications extra : List Modification} {d : Decision}

/-- What comes last is of the quarantine. -/
theorem Translated.extra_part
    (h : Translated b64 session stage ops a added edits modifications extra d) :
    ∀ m ∈ extra, Mta.part m = .quarantine := by
  intro m hm
  rw [verdict_extra h.verdict m hm]
  rfl

/-- **The recipients** are up to the deletes and adds of recipients. -/
theorem Translated.foldl_recipients
    (h : Translated b64 session stage ops a added edits modifications extra d) (l : List Bytes) :
    ∃ changed inserted sender deletes adds,
      Resolved session edits changed inserted sender deletes adds ∧
        d.modifications.foldl Mta.recipients l =
          adds.foldl Mta.recipients (deletes.foldl Mta.recipients l) := by
  obtain ⟨changed, inserted, sender, deletes, adds, hr, rfl⟩ := modifications_ok h.resolved
  refine ⟨changed, inserted, sender, deletes, adds, hr, ?_⟩
  have hraw : ∀ m ∈ a.raw.getD [], Mta.part m ≠ .recipients := by
    intro m hm
    rcases sets_part h.sets rfl m hm with hpart | hpart <;> rw [hpart] <;> decide
  rw [h.decision]
  simp only [List.foldl_append]
  rw [Mta.foldl_recipients_of_part (Mta.part_ne h.extra_part (by decide)),
    Mta.foldl_recipients_of_part hraw,
    Mta.foldl_recipients_of_part (Mta.part_ne (changes_part hr.changed) (by decide)),
    Mta.foldl_recipients_of_part (Mta.part_ne (inserts_part hr.inserted) (by decide)),
    Mta.foldl_recipients_of_part (Mta.part_ne (senderChange_part hr.sender) (by decide))]

/-- **The headers** are up to the changes and inserts of headers and the raw replacement. -/
theorem Translated.foldl_headers
    (h : Translated b64 session stage ops a added edits modifications extra d) (ls : Bool)
    (l : List (Bytes × Bytes)) :
    ∃ changed inserted sender deletes adds,
      Resolved session edits changed inserted sender deletes adds ∧
        d.modifications.foldl (Mta.headers ls) l =
          (a.raw.getD []).foldl (Mta.headers ls)
            (inserted.foldl (Mta.headers ls) (changed.foldl (Mta.headers ls) l)) := by
  obtain ⟨changed, inserted, sender, deletes, adds, hr, rfl⟩ := modifications_ok h.resolved
  refine ⟨changed, inserted, sender, deletes, adds, hr, ?_⟩
  rw [h.decision]
  simp only [List.foldl_append]
  rw [Mta.foldl_headers_of_part (Mta.part_ne h.extra_part (by decide)),
    Mta.foldl_headers_of_part (Mta.part_ne hr.adds_part (by decide)),
    Mta.foldl_headers_of_part (Mta.part_ne hr.deletes_part (by decide)),
    Mta.foldl_headers_of_part (Mta.part_ne (senderChange_part hr.sender) (by decide))]

/-- **The body** is up to the raw replacement. -/
theorem Translated.foldl_body
    (h : Translated b64 session stage ops a added edits modifications extra d) (b : Bytes) :
    d.modifications.foldl Mta.body b = (a.raw.getD []).foldl Mta.body b := by
  obtain ⟨changed, inserted, sender, deletes, adds, hr, rfl⟩ := modifications_ok h.resolved
  rw [h.decision]
  simp only [List.foldl_append]
  rw [Mta.foldl_body_of_part (Mta.part_ne h.extra_part (by decide)),
    Mta.foldl_body_of_part (Mta.part_ne (changes_part hr.changed) (by decide)),
    Mta.foldl_body_of_part (Mta.part_ne (inserts_part hr.inserted) (by decide)),
    Mta.foldl_body_of_part (Mta.part_ne (senderChange_part hr.sender) (by decide)),
    Mta.foldl_body_of_part (Mta.part_ne hr.deletes_part (by decide)),
    Mta.foldl_body_of_part (Mta.part_ne hr.adds_part (by decide))]

end Translated

end Hooks

end MtaHooks
