import MtaHooks.Hooks.Parts

namespace MtaHooks

open ListEdits

/-!
# Envelope recipients

The scanner edits recipients by position, the milter protocol deletes them by address.

* `recipients_left_iff` — the MTA is left with the recipients the scanner left exactly when
  original recipients of one address are all kept or all deleted.
-/

namespace Hooks

open Edits

/-! ### The effect of the modifications -/

/-- The original recipients, by address. -/
def addresses (session : Session) : List Bytes := session.message.recipients.map (·.address)

/-- Deletes remove the addresses of the recipients they are about. -/
theorem foldl_recipientDelete {session : Session} {deleted : List ℕ}
    {deletes : List Modification} (h : deleted.mapM (recipientDelete session) = .ok deletes)
    (l : List Bytes) :
    deletes.foldl Mta.recipients l =
      l.filter (· ∉ deleted.filterMap ((addresses session)[·]?)) := by
  induction deleted generalizing deletes l with
  | nil =>
    obtain rfl := Except.ok.inj h
    simp
  | cons i deleted ih =>
    rw [List.mapM_cons] at h
    obtain ⟨m, hm, h⟩ := Result.bind_ok_iff.mp h
    obtain ⟨ms, hms, h⟩ := Result.bind_ok_iff.mp h
    obtain rfl := Except.ok.inj h
    obtain ⟨recipient, hrecipient, hm⟩ := Result.bind_ok_iff.mp hm
    obtain ⟨address, haddress, hm⟩ := Result.bind_ok_iff.mp hm
    obtain rfl := Except.ok.inj hm
    obtain ⟨rfl, -⟩ := text_ok haddress
    have hi : (addresses session)[i]? = some recipient.address := by
      simp [addresses, okOr_eq_ok.mp hrecipient]
    rw [List.foldl_cons, ih hms, List.filterMap_cons_some hi]
    show (l.filter (· ≠ recipient.address)).filter _ = _
    rw [List.filter_filter]
    refine List.filter_congr fun b _ => ?_
    by_cases hb : b = recipient.address <;> simp [hb]

/-- Adds append the addresses of the recipients they are about. -/
theorem foldl_recipientAdd {added : List Address} {adds : List Modification}
    (h : added.mapM recipientAdd = .ok adds) (l : List Bytes) :
    adds.foldl Mta.recipients l = l ++ added.map Scanner.recipientAddress := by
  induction added generalizing adds l with
  | nil =>
    obtain rfl := Except.ok.inj h
    simp
  | cons a added ih =>
    rw [List.mapM_cons] at h
    obtain ⟨m, hm, h⟩ := Result.bind_ok_iff.mp h
    obtain ⟨ms, hms, h⟩ := Result.bind_ok_iff.mp h
    obtain rfl := Except.ok.inj h
    obtain ⟨⟨address, parameters⟩, hmilter, hm⟩ := Result.bind_ok_iff.mp hm
    obtain rfl := Except.ok.inj hm
    obtain ⟨address', haddress, hmilter⟩ := Result.bind_ok_iff.mp hmilter
    obtain ⟨_, -, hmilter⟩ := Result.bind_ok_iff.mp hmilter
    obtain ⟨rfl, -⟩ := Prod.mk.inj (Except.ok.inj hmilter)
    have hscanner : address' = Scanner.recipientAddress a := by
      unfold Address.milterAddress at haddress
      cases hfilter : a.address.filter (· ≠ []) with
      | none =>
        rw [hfilter] at haddress
        exact nomatch haddress
      | some s =>
        rw [hfilter] at haddress
        obtain rfl := Except.ok.inj haddress
        rw [Scanner.recipientAddress, (Option.filter_eq_some_iff.mp hfilter).1]
        rfl
    rw [List.foldl_cons, ih hms, hscanner]
    show (l ++ [_]) ++ _ = _
    simp

section Translated

variable {b64 : Base64} {session : Session} {stage : Stage} {ops : Operations} {a : Answered}
  {added edits : Edits} {modifications extra : List Modification} {d : Decision}

/-- **The recipients the MTA is left with**: the originals whose address was not deleted, and
    the added ones. -/
theorem Translated.recipients_applied
    (h : Translated b64 session stage ops a added edits modifications extra d) (l : List Bytes) :
    d.modifications.foldl Mta.recipients l =
      l.filter (· ∉ edits.recipients.deleted.filterMap ((addresses session)[·]?)) ++
        (edits.recipients.added.filterMap id).map Scanner.recipientAddress := by
  obtain ⟨changed, inserted, sender, deletes, adds, hr, hfold⟩ := h.foldl_recipients l
  rw [hfold, foldl_recipientDelete hr.deletes, foldl_recipientAdd hr.adds]

/-- The recipients the scanner left, up to order. -/
theorem Translated.recipients_asked
    (h : Translated b64 session stage ops a added edits modifications extra d) :
    (Scanner.recipients ops (addresses session)).Perm
      (((List.range session.message.recipients.length).filter
          (· ∉ edits.recipients.deleted)).filterMap ((addresses session)[·]?) ++
        (edits.recipients.added.filterMap id).map Scanner.recipientAddress) := by
  have hlen : (addresses session).length = session.message.recipients.length := by
    simp [addresses]
  have hfollows := h.recipients_follow (addresses session) Scanner.recipientAddress hlen
  rw [← hlen]
  exact hfollows.2.perm hfollows.1

/-- An original recipient survives iff it is not among the deleted ones. -/
theorem Translated.mem_survivors
    (h : Translated b64 session stage ops a added edits modifications extra d) (j : ℕ) :
    some j ∈ Scanner.survivors ops session.message.recipients.length ↔
      j < session.message.recipients.length ∧ j ∉ edits.recipients.deleted := by
  have hfollows := h.recipients_follow
    ((List.range session.message.recipients.length).map some) (fun _ => none) (by simp)
  have hperm := hfollows.2.perm hfollows.1
  show some j ∈ Scanner.editArray _ _ _ _ ↔ _
  rw [hperm.mem_iff]
  simp only [List.length_map, List.length_range, List.mem_append, List.mem_filterMap,
    List.mem_filter, List.mem_range, decide_eq_true_eq, List.mem_map, reduceCtorEq, and_false,
    exists_false, or_false]
  constructor
  · rintro ⟨k, ⟨hk, hkeep⟩, hj⟩
    rw [List.getElem?_map, List.getElem?_range hk] at hj
    obtain rfl := Option.some.inj (Option.some.inj hj)
    exact ⟨hk, hkeep⟩
  · rintro ⟨hj, hkeep⟩
    refine ⟨j, ⟨hj, hkeep⟩, ?_⟩
    rw [List.getElem?_map, List.getElem?_range hj]
    rfl

end Translated

/-- Deleting addresses keeps the list of the recipients not deleted exactly when none of those
    has a deleted address. -/
theorem filter_addresses_perm {l : List Bytes} {deleted : List ℕ} :
    (l.filter (· ∉ deleted.filterMap (l[·]?))).Perm
        (((List.range l.length).filter (· ∉ deleted)).filterMap (l[·]?)) ↔
      ∀ i ∈ deleted, ∀ j ∉ deleted, ∀ address, l[i]? = some address → l[j]? ≠ some address := by
  set gone := deleted.filterMap (l[·]?)
  set kept := ((List.range l.length).filter (· ∉ deleted)).filterMap (l[·]?)
  have hkept : l.filter (· ∉ gone) = kept.filter (· ∉ gone) := by
    have hl : l = (List.range l.length).filterMap (l[·]?) := by
      rw [filterMap_getElem?_range l le_rfl, List.take_length]
    conv_lhs => rw [hl]
    rw [List.filter_filterMap, List.filter_filterMap, List.filterMap_filter]
    refine List.filterMap_congr fun i hi => ?_
    by_cases hdeleted : i ∈ deleted
    · have hlt := List.mem_range.mp hi
      have hgone : l[i] ∈ gone :=
        List.mem_filterMap.mpr ⟨i, hdeleted, List.getElem?_eq_getElem hlt⟩
      simp [hdeleted, List.getElem?_eq_getElem hlt, hgone]
    · simp [hdeleted]
  have hall : (kept.filter (· ∉ gone)).Perm kept ↔ ∀ a ∈ kept, a ∉ gone := by
    constructor
    · intro hperm a ha
      have hself := List.length_filter_eq_length_iff.mp hperm.length_eq a ha
      simpa using hself
    · intro hall
      rw [List.filter_eq_self.mpr fun a ha => by simpa using hall a ha]
  rw [hkept, hall]
  constructor
  · intro h i hi j hj address hai haj
    have hlt : j < l.length := (List.getElem?_eq_some_iff.mp haj).1
    have hmem : address ∈ kept :=
      List.mem_filterMap.mpr ⟨j, List.mem_filter.mpr ⟨List.mem_range.mpr hlt, by simpa⟩, haj⟩
    exact h address hmem (List.mem_filterMap.mpr ⟨i, hi, hai⟩)
  · intro h address hmem hgone
    obtain ⟨j, hj, haj⟩ := List.mem_filterMap.mp hmem
    obtain ⟨i, hi, hai⟩ := List.mem_filterMap.mp hgone
    have hkeep : j ∉ deleted := by simpa using (List.mem_filter.mp hj).2
    exact h i hi j hkeep address hai haj

/-- **The recipients are those the scanner left** exactly when the original recipients of one
    address are all kept or all deleted. -/
theorem recipients_left_iff {b64 : Base64} {value : Json} {session : Session} {stage : Stage}
    {ops : Operations} {d : Decision} (hops : Operations.fromValue value = some ops)
    (h : translate b64 value session stage = .ok d) :
    (d.modifications.foldl Mta.recipients (addresses session)).Perm
        (Scanner.recipients ops (addresses session)) ↔
      ∀ i j address, (addresses session)[i]? = some address →
        (addresses session)[j]? = some address →
        some j ∈ Scanner.survivors ops session.message.recipients.length →
        some i ∈ Scanner.survivors ops session.message.recipients.length := by
  obtain ⟨ops', a, added, edits, modifications, extra, hops', ht⟩ := translate_ok h
  obtain rfl := Option.some.inj (hops.symm.trans hops')
  have hlen : (addresses session).length = session.message.recipients.length := by
    simp [addresses]
  have hasked := ht.recipients_asked
  rw [← hlen] at hasked
  have hleft : (d.modifications.foldl Mta.recipients (addresses session)).Perm
        (Scanner.recipients ops (addresses session)) ↔
      ((addresses session).filter
        (· ∉ edits.recipients.deleted.filterMap ((addresses session)[·]?))).Perm
        (((List.range (addresses session).length).filter
          (· ∉ edits.recipients.deleted)).filterMap ((addresses session)[·]?)) := by
    rw [ht.recipients_applied, hasked.congr_right, List.perm_append_right_iff]
  rw [hleft, filter_addresses_perm]
  constructor
  · intro hdistinct i j address hi hj hsurvives
    rw [ht.mem_survivors] at hsurvives ⊢
    refine ⟨hlen ▸ (List.getElem?_eq_some_iff.mp hi).1, fun hdeleted => ?_⟩
    exact hdistinct i hdeleted j hsurvives.2 address hi hj
  · intro hclosed i hdeleted j hkept address hi hj
    have hj' : some j ∈ Scanner.survivors ops session.message.recipients.length :=
      (ht.mem_survivors j).mpr ⟨hlen ▸ (List.getElem?_eq_some_iff.mp hj).1, hkept⟩
    have hi' := (ht.mem_survivors i).mp (hclosed i j address hi hj hj')
    exact hi'.2 hdeleted

/-- Two recipients of one address; the scanner deletes the first. -/
def sampleTwice : Session := Sample.atEnd ["<b>", "<b>"] []

/-- The MTA deletes both. -/
theorem sampleTwice_loses :
    ∃ d, translate Sample.base64 (Sample.response [] [] [Sample.deleteOp "/envelope/to/0"])
        sampleTwice .endMessage = .ok d ∧ d.verdict = .continue ∧
      ∃ ops, Operations.fromValue
          (Sample.response [] [] [Sample.deleteOp "/envelope/to/0"]) = some ops ∧
        ¬ (d.modifications.foldl Mta.recipients (addresses sampleTwice)).Perm
          (Scanner.recipients ops (addresses sampleTwice)) := by
  refine ⟨{ modifications := [.deleteRecipient "<b>"] }, by decide +kernel, rfl,
    ⟨some [], some [], some [⟨"/envelope/to/0"⟩]⟩, rfl, by decide +kernel⟩

/-- Two recipients of different addresses. -/
def sampleRecipients : Session := Sample.atEnd ["<b>", "<c>"] []

/-- The second recipient is left when the first is deleted. -/
theorem recipients_left_iff_at_sample :
    ∃ ops d, translate Sample.base64 (Sample.response [] [] [Sample.deleteOp "/envelope/to/0"])
        sampleRecipients .endMessage = .ok d ∧
      (d.modifications.foldl Mta.recipients (addresses sampleRecipients)).Perm
        (Scanner.recipients ops (addresses sampleRecipients)) := by
  have hops : Operations.fromValue (Sample.response [] [] [Sample.deleteOp "/envelope/to/0"]) =
      some ⟨some [], some [], some [⟨"/envelope/to/0"⟩]⟩ := rfl
  have htranslate : translate Sample.base64
      (Sample.response [] [] [Sample.deleteOp "/envelope/to/0"]) sampleRecipients .endMessage =
      .ok { modifications := [.deleteRecipient "<b>"] } := by decide +kernel
  refine ⟨_, _, htranslate, (recipients_left_iff hops htranslate).mpr ?_⟩
  intro i j address hi hj hsurvives
  have hsurvivors : Scanner.survivors ⟨some [], some [], some [⟨"/envelope/to/0"⟩]⟩
      sampleRecipients.message.recipients.length = [some 1] := by decide +kernel
  have haddresses : addresses sampleRecipients = [ascii "<b>", ascii "<c>"] := by decide +kernel
  rw [hsurvivors] at hsurvives ⊢
  obtain rfl : j = 1 := by simpa using hsurvives
  rw [haddresses] at hi hj
  obtain rfl : address = ascii "<c>" := (Option.some.inj hj).symm
  match i, hi with
  | 0, hi => exact absurd (Option.some.inj hi) (by decide)
  | 1, _ => exact List.mem_singleton.mpr rfl
  | i + 2, hi => exact nomatch hi

end Hooks

end MtaHooks
