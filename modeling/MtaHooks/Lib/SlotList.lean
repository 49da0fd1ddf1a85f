import MtaHooks.Lib.ListEdits
import Mathlib.Data.List.Perm.Basic
import Mathlib.Data.List.Nodup

namespace ListEdits

/-!
# Edited lists that remember where their elements come from

A `SlotList` is a list under edition by position.  Each slot is an element of the original
list or an added one, the added elements are kept in a side table, and the deleted originals
are listed.

* `Wf` — the representation invariant, kept by `insert` and `remove`;
* `Shows` — the list that a reader sees; `insert` and `remove` refine `List.insertIdx` and
  `List.eraseIdx` on it;
* `Shows.perm` — up to order it is what is left of the originals and of the table.
-/

/-- Where an element of an edited list comes from. -/
inductive Slot
  | original (i : ℕ)
  | added (i : ℕ)
  deriving DecidableEq

namespace Slot

/-- The position of an original element. -/
def original? : Slot → Option ℕ
  | original i => some i
  | added _ => none

/-- The index of an added element. -/
def added? : Slot → Option ℕ
  | original _ => none
  | added i => some i

/-- A slot of an added element. -/
theorem added?_eq_some {s : Slot} {i : ℕ} : s.added? = some i ↔ s = added i := by
  cases s <;> simp [added?]

end Slot

/-- A list under edition. -/
structure SlotList (β : Type*) where
  slots : List Slot := []
  /-- The elements added so far; one that was removed again is none. -/
  added : List (Option β) := []
  /-- The originals removed, in order of removal. -/
  deleted : List ℕ := []

namespace SlotList

variable {α β : Type*}

/-- The original list, not edited yet. -/
def ofLength (n : ℕ) : SlotList β := { slots := (List.range n).map .original }

/-- Insert an element at a position. -/
def insert (e : SlotList β) (i : ℕ) (b : β) : SlotList β :=
  { e with
    slots := e.slots.insertIdx i (.added e.added.length)
    added := e.added ++ [some b] }

/-- Remove the element at a position. -/
def remove (e : SlotList β) (i : ℕ) : SlotList β :=
  match e.slots[i]? with
  | some (.original k) =>
    { e with slots := e.slots.eraseIdx i, deleted := e.deleted ++ [k] }
  | some (.added k) => { e with slots := e.slots.eraseIdx i, added := e.added.set k none }
  | none => e

/-- A removal makes no list longer. -/
theorem length_remove_le (e : SlotList β) (i : ℕ) :
    (e.remove i).slots.length ≤ e.slots.length := by
  unfold remove
  split
  · exact List.length_eraseIdx_le _ _
  · exact List.length_eraseIdx_le _ _
  · exact le_rfl

/-- The added element of an index. -/
def addedAt (e : SlotList β) (k : ℕ) : Option β := e.added[k]?.join

/-- An insertion puts its element behind the added ones. -/
theorem addedAt_insert (e : SlotList β) (i : ℕ) (b : β) (k : ℕ) :
    (e.insert i b).addedAt k = if k = e.added.length then some b else e.addedAt k := by
  simp only [addedAt, insert]
  rcases Nat.lt_trichotomy k e.added.length with h | h | h
  · rw [List.getElem?_append_left h, if_neg (by omega)]
  · rw [h, List.getElem?_concat_length, if_pos rfl]
    rfl
  · rw [if_neg (by omega), List.getElem?_eq_none (by simp; omega),
      List.getElem?_eq_none (by omega)]

/-! ### The representation invariant -/

/-- The slots are distinct; they show the originals not deleted, in order, and exactly the
    added elements of the table. -/
structure Wf (n : ℕ) (e : SlotList β) : Prop where
  nodup : e.slots.Nodup
  originals : e.slots.filterMap Slot.original? = (List.range n).filter (· ∉ e.deleted)
  present : ∀ k, .added k ∈ e.slots ↔ (e.addedAt k).isSome
  deleted_nodup : e.deleted.Nodup
  deleted_lt : ∀ k ∈ e.deleted, k < n

/-- The unedited list is well formed. -/
theorem Wf.ofLength (n : ℕ) : Wf n (ofLength n : SlotList β) where
  nodup := List.nodup_range.map fun _ _ h => by injection h
  originals := by
    simp [SlotList.ofLength, List.filterMap_map, Function.comp_def, Slot.original?]
  present := by
    simp [SlotList.ofLength, addedAt]
  deleted_nodup := List.nodup_nil
  deleted_lt := by simp [SlotList.ofLength]

/-- The next added slot is a fresh one. -/
theorem Wf.fresh {n : ℕ} {e : SlotList β} (h : Wf n e) : .added e.added.length ∉ e.slots := by
  rw [h.present]
  simp [addedAt]

/-- An insertion keeps a list well formed. -/
theorem Wf.insert {n : ℕ} {e : SlotList β} (h : Wf n e) {i : ℕ} (hi : i ≤ e.slots.length)
    (b : β) : Wf n (e.insert i b) where
  nodup := by
    have hperm := List.perm_insertIdx (Slot.added e.added.length) e.slots hi
    exact hperm.nodup_iff.mpr (List.nodup_cons.mpr ⟨h.fresh, h.nodup⟩)
  originals := by
    obtain ⟨before, after, hslots, rfl⟩ : ∃ before after, e.slots = before ++ after ∧
        before.length = i := ⟨e.slots.take i, e.slots.drop i, by simp, by simp [hi]⟩
    have horiginals := h.originals
    simp only [SlotList.insert, hslots, insertIdx_length] at horiginals ⊢
    rw [← horiginals]
    simp [List.filterMap_append, List.filterMap_cons, Slot.original?]
  present := by
    intro k
    rw [addedAt_insert]
    show _ ∈ e.slots.insertIdx i _ ↔ _
    rw [List.mem_insertIdx hi, h.present]
    by_cases hk : k = e.added.length <;> simp [hk]
  deleted_nodup := h.deleted_nodup
  deleted_lt := h.deleted_lt

/-- Removing an element splits the slots around it. -/
theorem exists_split {l : List Slot} {i : ℕ} {s : Slot} (h : l[i]? = some s) :
    ∃ before after, l = before ++ s :: after ∧ l.eraseIdx i = before ++ after := by
  obtain ⟨hi, rfl⟩ := List.getElem?_eq_some_iff.mp h
  refine ⟨l.take i, l.drop (i + 1), ?_, List.eraseIdx_eq_take_drop_succ l i⟩
  rw [← List.drop_eq_getElem_cons hi, List.take_append_drop]

/-- Deleting one more element of a filtered range. -/
private theorem filter_notMem_concat {n k : ℕ} {before after deleted : List ℕ}
    (h : before ++ k :: after = (List.range n).filter (· ∉ deleted)) :
    before ++ after = (List.range n).filter (· ∉ deleted ++ [k]) := by
  have hnodup := (List.nodup_range (n := n)).filter (fun j => decide (j ∉ deleted))
  rw [← h] at hnodup
  have hfresh : k ∉ before ++ after := (List.nodup_middle.mp hnodup).notMem
  have hkept : (List.range n).filter (fun j => decide (j ∉ deleted ++ [k])) =
      ((List.range n).filter (fun j => decide (j ∉ deleted))).filter (· ≠ k) := by
    rw [List.filter_filter]
    refine List.filter_congr fun j _ => ?_
    by_cases hj : j = k <;> simp [hj]
  have hself : (before ++ after).filter (· ≠ k) = before ++ after := by
    refine List.filter_eq_self.mpr fun j hj => ?_
    have hne : j ≠ k := fun h => hfresh (h ▸ hj)
    simpa using hne
  rw [hkept, ← h, List.filter_append, List.filter_cons_of_neg (by simp), ← List.filter_append,
    hself]

/-- A removal keeps a list well formed. -/
theorem Wf.remove {n : ℕ} {e : SlotList β} (h : Wf n e) (i : ℕ) : Wf n (e.remove i) := by
  unfold SlotList.remove
  cases hs : e.slots[i]? with
  | none => exact h
  | some s =>
    obtain ⟨before, after, hslots, herase⟩ := exists_split hs
    have hnodup := h.nodup
    rw [hslots] at hnodup
    have hout : s ∉ before ++ after := (List.nodup_middle.mp hnodup).notMem
    have horiginals := h.originals
    rw [hslots] at horiginals
    cases s with
    | original k =>
      have hsplit : before.filterMap Slot.original? ++ k :: after.filterMap Slot.original? =
          (List.range n).filter (· ∉ e.deleted) := by
        rw [← horiginals]
        simp [List.filterMap_append, Slot.original?]
      have hk : k ∈ (List.range n).filter (· ∉ e.deleted) := by
        rw [← hsplit]
        simp
      obtain ⟨hlt, hkeep⟩ := List.mem_filter.mp hk
      refine ⟨?_, ?_, fun j => ?_, ?_, fun j hj => ?_⟩
      · rw [herase]
        exact (List.nodup_middle.mp hnodup).of_cons
      · show (e.slots.eraseIdx i).filterMap _ = _
        rw [herase, List.filterMap_append, filter_notMem_concat hsplit]
      · show .added j ∈ e.slots.eraseIdx i ↔ (e.addedAt j).isSome
        rw [← h.present, hslots, ← hslots, herase, hslots]
        simp
      · refine List.nodup_append.mpr ⟨h.deleted_nodup, List.nodup_singleton k, ?_⟩
        rintro a ha b hb rfl
        rw [List.mem_singleton.mp hb] at ha
        simp [ha] at hkeep
      · rcases List.mem_append.mp hj with hj | hj
        · exact h.deleted_lt j hj
        · rw [List.mem_singleton.mp hj]
          exact List.mem_range.mp hlt
    | added k =>
      refine ⟨?_, ?_, fun j => ?_, h.deleted_nodup, h.deleted_lt⟩
      · rw [herase]
        exact (List.nodup_middle.mp hnodup).of_cons
      · rw [← h.originals, herase, hslots]
        simp [List.filterMap_append, List.filterMap_cons, Slot.original?]
      · show .added j ∈ e.slots.eraseIdx i ↔ ((e.added.set k none)[j]?.join).isSome
        rw [herase, List.getElem?_set]
        by_cases hj : k = j
        · subst hj
          have hnone : (if k < e.added.length then some (none : Option β) else none).join =
              none := by
            split <;> rfl
          simp [hout, hnone]
        · rw [if_neg hj]
          have hpresent := h.present j
          rw [hslots] at hpresent
          rw [addedAt] at hpresent
          rw [← hpresent]
          have hne : Slot.added j ≠ Slot.added k := by
            intro h
            injection h with h
            exact hj h.symm
          simp [hne]

/-! ### Each element once -/

/-- An added element is in the table iff its slot is there, and then once. -/
theorem Wf.count_added {n : ℕ} {e : SlotList β} (h : Wf n e) (k : ℕ) :
    e.slots.count (.added k) = if (e.addedAt k).isSome then 1 else 0 := by
  by_cases hk : (e.addedAt k).isSome = true
  · rw [if_pos hk]
    exact List.count_eq_one_of_mem h.nodup ((h.present k).mpr hk)
  · rw [if_neg hk]
    exact List.count_eq_zero.mpr fun hmem => hk ((h.present k).mp hmem)

/-- An original element is listed unless it is deleted. -/
theorem Wf.mem_original {n : ℕ} {e : SlotList β} (h : Wf n e) (i : ℕ) :
    .original i ∈ e.slots ↔ i < n ∧ i ∉ e.deleted := by
  have hshown : .original i ∈ e.slots ↔ i ∈ e.slots.filterMap Slot.original? := by
    rw [List.mem_filterMap]
    constructor
    · exact fun hmem => ⟨_, hmem, rfl⟩
    · rintro ⟨s, hs, hi⟩
      cases s with
      | original k =>
        obtain rfl := Option.some.inj hi
        exact hs
      | added k => exact nomatch hi
  rw [hshown, h.originals, List.mem_filter, List.mem_range, decide_eq_true_eq]

/-- An original is in the slots or deleted, and once. -/
theorem Wf.count_original {n : ℕ} {e : SlotList β} (h : Wf n e) (i : ℕ) :
    e.slots.count (.original i) + e.deleted.count i = if i < n then 1 else 0 := by
  by_cases hdeleted : i ∈ e.deleted
  · have hslots : .original i ∉ e.slots := fun hmem => ((h.mem_original i).mp hmem).2 hdeleted
    rw [List.count_eq_zero.mpr hslots, List.count_eq_one_of_mem h.deleted_nodup hdeleted,
      if_pos (h.deleted_lt i hdeleted)]
  · rw [List.count_eq_zero.mpr hdeleted]
    by_cases hi : i < n
    · rw [if_pos hi, List.count_eq_one_of_mem h.nodup ((h.mem_original i).mpr ⟨hi, hdeleted⟩)]
    · have hslots : .original i ∉ e.slots := fun hmem => hi ((h.mem_original i).mp hmem).1
      rw [if_neg hi, List.count_eq_zero.mpr hslots]

/-- The originals are in increasing order. -/
theorem Wf.ordered {n : ℕ} {e : SlotList β} (h : Wf n e) :
    (e.slots.filterMap Slot.original?).Pairwise (· < ·) := by
  rw [h.originals]
  exact List.Pairwise.filter _ List.pairwise_lt_range

/-! ### What a reader sees -/

section Reading

variable (xs : List α) (g : β → α)

/-- The element in a slot. -/
def resolve (e : SlotList β) : Slot → Option α
  | .original i => xs[i]?
  | .added k => (e.addedAt k).map g

/-- The edited list reads as `l`. -/
def Shows (e : SlotList β) (l : List α) : Prop := e.slots.map (e.resolve xs g) = l.map some

variable {xs} {g}

/-- The unedited list shows the originals. -/
theorem Shows.ofLength : Shows xs g (ofLength xs.length : SlotList β) xs := by
  unfold Shows
  refine List.ext_getElem? fun i => ?_
  simp only [SlotList.ofLength, List.map_map, List.getElem?_map]
  by_cases hi : i < xs.length
  · simp [resolve, hi]
  · simp [Nat.not_lt.mp hi]

/-- What is shown has as many elements as there are slots. -/
theorem Shows.length {e : SlotList β} {l : List α} (h : Shows xs g e l) :
    e.slots.length = l.length := by
  simpa using congrArg List.length h

/-- **Insertion refines `insertIdx`.** -/
theorem Shows.insert {n : ℕ} {e : SlotList β} {l : List α} (h : Shows xs g e l) (hwf : Wf n e)
    (i : ℕ) (b : β) : Shows xs g (e.insert i b) (l.insertIdx i (g b)) := by
  have hold : ∀ s ∈ e.slots, (e.insert i b).resolve xs g s = e.resolve xs g s := by
    intro s hs
    cases s with
    | original k => rfl
    | added k =>
      have hne : k ≠ e.added.length := by
        rintro rfl
        exact hwf.fresh hs
      simp [resolve, addedAt_insert, hne]
  have hnew : (e.insert i b).resolve xs g (.added e.added.length) = some (g b) := by
    simp [resolve, addedAt_insert]
  unfold Shows at h ⊢
  show (e.slots.insertIdx i _).map _ = _
  rw [List.map_insertIdx, List.map_congr_left hold, h, hnew, List.map_insertIdx]

/-- **Removal refines `eraseIdx`.** -/
theorem Shows.remove {n : ℕ} {e : SlotList β} {l : List α} (h : Shows xs g e l) (hwf : Wf n e)
    {i : ℕ} (hi : i < e.slots.length) : Shows xs g (e.remove i) (l.eraseIdx i) := by
  have hs : e.slots[i]? = some e.slots[i] := List.getElem?_eq_getElem hi
  obtain ⟨before, after, hslots, herase⟩ := exists_split hs
  have hnodup := hwf.nodup
  rw [hslots] at hnodup
  have hout : e.slots[i] ∉ e.slots.eraseIdx i := by
    rw [herase]
    exact (List.nodup_middle.mp hnodup).notMem
  have hslots' : (e.remove i).slots = e.slots.eraseIdx i := by
    unfold SlotList.remove
    rw [hs]
    cases e.slots[i] <;> rfl
  have hold : ∀ s ∈ e.slots.eraseIdx i, (e.remove i).resolve xs g s = e.resolve xs g s := by
    intro s hmem
    cases s with
    | original k => rfl
    | added k =>
      unfold SlotList.remove
      rw [hs]
      cases hi' : e.slots[i] with
      | original j => rfl
      | added j =>
        have hne : j ≠ k := by
          rintro rfl
          rw [hi'] at hout
          exact hout hmem
        simp [resolve, addedAt, List.getElem?_set_ne hne]
  unfold Shows at h ⊢
  rw [hslots', List.map_congr_left hold, ← List.eraseIdx_map, h, List.eraseIdx_map]

/-! ### Up to order -/

/-- What the slots stand for, sorted by where it comes from. -/
theorem filterMap_slots_perm (l : List Slot) (r : Slot → Option α) :
    (l.filterMap r).Perm
      ((l.filterMap Slot.original?).filterMap (r ∘ .original) ++
        (l.filterMap Slot.added?).filterMap (r ∘ .added)) := by
  induction l with
  | nil => exact .refl _
  | cons s l ih =>
    cases s with
    | original i =>
      cases hr : r (.original i) with
      | none => simpa [Slot.original?, Slot.added?, List.filterMap_cons, hr] using ih
      | some a => simpa [Slot.original?, Slot.added?, List.filterMap_cons, hr] using ih
    | added k =>
      cases hr : r (.added k) with
      | none => simpa [Slot.original?, Slot.added?, List.filterMap_cons, hr] using ih
      | some a =>
        have h := (ih.cons a).trans List.perm_middle.symm
        simpa [Slot.original?, Slot.added?, List.filterMap_cons, hr] using h

/-- What is left of the added elements. -/
theorem filterMap_addedAt (e : SlotList β) :
    (List.range e.added.length).filterMap e.addedAt = e.added.filterMap id := by
  have h := congrArg (List.filterMap id) (filterMap_getElem?_range e.added le_rfl)
  rw [List.filterMap_filterMap, List.take_length] at h
  rw [← h]
  refine List.filterMap_congr fun k _ => ?_
  unfold addedAt
  cases e.added[k]? <;> rfl

/-- The slots show each element of the table once. -/
theorem Wf.added_perm {n : ℕ} {e : SlotList β} (h : Wf n e) :
    ((e.slots.filterMap Slot.added?).filterMap e.addedAt).Perm (e.added.filterMap id) := by
  have hmem : ∀ k, k ∈ e.slots.filterMap Slot.added? ↔
      k ∈ (List.range e.added.length).filter fun k => (e.addedAt k).isSome := by
    intro k
    simp only [List.mem_filterMap, Slot.added?_eq_some, List.mem_filter, List.mem_range]
    constructor
    · rintro ⟨s, hs, rfl⟩
      have hsome := (h.present k).mp hs
      refine ⟨?_, hsome⟩
      by_contra hk
      rw [addedAt, List.getElem?_eq_none (Nat.not_lt.mp hk)] at hsome
      exact nomatch hsome
    · rintro ⟨-, hsome⟩
      exact ⟨_, (h.present k).mpr hsome, rfl⟩
  have hnodup : (e.slots.filterMap Slot.added?).Nodup := by
    refine h.nodup.filterMap fun s s' k hk hk' => ?_
    rw [Slot.added?_eq_some.mp hk, Slot.added?_eq_some.mp hk']
  have hperm := (List.perm_ext_iff_of_nodup hnodup (List.nodup_range.filter _)).mpr hmem
  refine (hperm.filterMap e.addedAt).trans ?_
  rw [← filterMap_addedAt, List.filterMap_filter]
  refine .of_eq (List.filterMap_congr fun k _ => ?_)
  cases hk : e.addedAt k <;> simp

/-- **Up to order** the list is what is left of the originals and of the table. -/
theorem Shows.perm {n : ℕ} {e : SlotList β} {l : List α} (h : Shows xs g e l) (hwf : Wf n e) :
    l.Perm
      (((List.range n).filter (· ∉ e.deleted)).filterMap (xs[·]?) ++
        (e.added.filterMap id).map g) := by
  have hl : l = e.slots.filterMap (e.resolve xs g) := by
    have := congrArg (List.filterMap id) h
    simpa [List.filterMap_map, Function.comp_def] using this.symm
  rw [hl, ← hwf.originals]
  refine (filterMap_slots_perm e.slots (e.resolve xs g)).trans (.append_left _ ?_)
  have hadded : e.resolve xs g ∘ Slot.added = fun k => (e.addedAt k).map g := rfl
  rw [hadded, ← List.map_filterMap]
  exact hwf.added_perm.map g

end Reading

end SlotList

end ListEdits
