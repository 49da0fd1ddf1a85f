import Mathlib.Data.List.InsertIdx
import Mathlib.Data.List.Range

namespace ListEdits

/-!
# Edits of a list by position and by occurrence

A protocol that edits a list one element at a time names the element by its position, or by
counting the elements of its kind.  Both names shift when the list changes.  Two orders keep
them valid:

* `foldl_descending` — edits in descending order of position: what lies before the element
  edited is still the original list;
* `foldl_ascending` — insertions in ascending order of the *final* position: what lies before
  the element inserted is already the final list.
-/

variable {α ε φ : Type*}

/-! ### One edit -/

/-- Put what an edit leaves of the element at `i` in its place. -/
def editAt (i : ℕ) (left : Option α) (l : List α) : List α :=
  l.take i ++ left.toList ++ l.drop (i + 1)

/-- Edit the `k`-th element, from one, that satisfies `p`. -/
def editOccurrence (p : α → Bool) (edit : α → Option α) : ℕ → List α → List α
  | _, [] => []
  | k, x :: xs =>
    if p x then
      if k = 1 then (edit x).toList ++ xs else x :: editOccurrence p edit (k - 1) xs
    else x :: editOccurrence p edit k xs

/-- The occurrence of an element is one more than the number of its kind before it. -/
theorem editOccurrence_eq_editAt {p : α → Bool} {edit : α → Option α} {l : List α} {i : ℕ}
    {x : α} (hx : l[i]? = some x) (hp : p x = true) :
    editOccurrence p edit ((l.take i).countP p + 1) l = editAt i (edit x) l := by
  induction l generalizing i with
  | nil => exact nomatch hx
  | cons y ys ih =>
    cases i with
    | zero =>
      obtain rfl := Option.some.inj hx
      simp [editOccurrence, editAt, hp]
    | succ i =>
      have hys : editOccurrence p edit ((ys.take i).countP p + 1) ys = editAt i (edit x) ys :=
        ih hx
      by_cases hy : p y
      · have hcount : ((y :: ys).take (i + 1)).countP p = (ys.take i).countP p + 1 := by
          rw [List.take_succ_cons, List.countP_cons_of_pos hy]
        rw [hcount, editOccurrence, if_pos hy, if_neg (by omega), Nat.add_sub_cancel, hys]
        rfl
      · have hcount : ((y :: ys).take (i + 1)).countP p = (ys.take i).countP p := by
          rw [List.take_succ_cons, List.countP_cons_of_neg hy]
        rw [hcount, editOccurrence, if_neg hy, hys]
        rfl

/-! ### Descending edits -/

/-- What the edits leave of the element at `k`. -/
def edited (l : List α) (edits : List (ℕ × Option α)) (k : ℕ) : Option α :=
  match edits.lookup k with
  | some left => left
  | none => l[k]?

/-- The first places of a list are its first elements. -/
theorem filterMap_getElem?_range (l : List α) {n : ℕ} (hn : n ≤ l.length) :
    (List.range n).filterMap (l[·]?) = l.take n := by
  induction n with
  | zero => rfl
  | succ n ih =>
    have hlt : n < l.length := hn
    rw [List.range_succ, List.filterMap_append, ih (Nat.le_of_lt hlt), List.take_add_one]
    simp [List.getElem?_eq_getElem hlt]

/-- No edit reaches the position. -/
theorem lookup_of_lt {edits : List (ℕ × ε)} {k : ℕ} (h : ∀ e ∈ edits, e.1 < k) :
    edits.lookup k = none := by
  rw [List.lookup_eq_none_iff]
  intro e he
  have := h e he
  simp only [bne_iff_ne, ne_eq]
  omega

/-- Positions edited once find their edit. -/
theorem lookup_of_mem {edits : List (ℕ × ε)} (hnodup : (edits.map Prod.fst).Nodup) {k : ℕ} {x : ε}
    (h : (k, x) ∈ edits) : edits.lookup k = some x := by
  induction edits with
  | nil => exact nomatch h
  | cons e edits ih =>
    obtain ⟨i, y⟩ := e
    rw [List.map_cons, List.nodup_cons] at hnodup
    rcases List.mem_cons.mp h with heq | hmem
    · obtain ⟨rfl, rfl⟩ := Prod.mk.inj heq
      simp
    · have hne : (k == i) = false := by
        have hk : k ∈ edits.map Prod.fst := List.mem_map.mpr ⟨_, hmem, rfl⟩
        exact beq_eq_false_iff_ne.mpr fun h => hnodup.1 (h ▸ hk)
      rw [List.lookup_cons, hne]
      exact ih hnodup.2 hmem

/-- Elements replaced once each, in any order. -/
theorem getElem?_foldl_modify {replace : ε → α → α} {edits : List (ℕ × ε)}
    (hnodup : (edits.map Prod.fst).Nodup) (l : List α) (k : ℕ) :
    (edits.foldl (fun l e => l.modify e.1 (replace e.2)) l)[k]? =
      match edits.lookup k with
      | some x => l[k]?.map (replace x)
      | none => l[k]? := by
  induction edits generalizing l with
  | nil => rfl
  | cons e edits ih =>
    obtain ⟨i, x⟩ := e
    rw [List.map_cons, List.nodup_cons] at hnodup
    rw [List.foldl_cons, ih hnodup.2, List.lookup_cons, List.getElem?_modify]
    by_cases hk : k = i
    · subst hk
      have hnone : edits.lookup k = none := by
        rw [List.lookup_eq_none_iff]
        intro e he
        simp only [bne_iff_ne, ne_eq]
        rintro rfl
        exact hnodup.1 (List.mem_map.mpr ⟨e, he, rfl⟩)
      rw [hnone, beq_self_eq_true]
      cases l[k]? <;> simp
    · have hne : (k == i) = false := beq_eq_false_iff_ne.mpr hk
      have hid : (l[k]?.map fun a => if i = k then replace x a else a) = l[k]? := by
        simp [Ne.symm hk]
      rw [hne]
      cases edits.lookup k with
      | none => exact hid
      | some y => exact congrArg (Option.map (replace y)) hid

/-- The highest edit splits the range: below it the other edits count, above it none. -/
theorem filterMap_edited_cons {l : List α} {edits : List (ℕ × Option α)} {i b : ℕ}
    (left : Option α) (hi : i < b) (hb : b ≤ l.length) (hbelow : ∀ e ∈ edits, e.1 < i) :
    (List.range b).filterMap (edited l ((i, left) :: edits)) =
      (List.range i).filterMap (edited l edits) ++
        (left.toList ++ (l.take b).drop (i + 1)) := by
  obtain ⟨rest, rfl⟩ : ∃ rest, b = i + 1 + rest := ⟨b - (i + 1), by omega⟩
  have hbefore : ∀ k ∈ List.range i, edited l ((i, left) :: edits) k = edited l edits k := by
    intro k hk
    have hne : (k == i) = false := by
      have := List.mem_range.mp hk
      simp only [beq_eq_false_iff_ne]
      omega
    simp only [edited, List.lookup_cons, hne]
  have hat : [i].filterMap (edited l ((i, left) :: edits)) = left.toList := by
    cases left <;> simp [edited]
  have hafter : edited l ((i, left) :: edits) ∘ (i + 1 + ·) = ((l.drop (i + 1))[·]?) := by
    funext k
    have hnone : ((i, left) :: edits).lookup (i + 1 + k) = none := by
      refine lookup_of_lt fun e he => ?_
      rcases List.mem_cons.mp he with rfl | he
      · show i < _
        omega
      · have := hbelow e he
        omega
    rw [Function.comp_apply, edited, hnone, List.getElem?_drop]
  rw [List.range_add, List.range_succ, List.filterMap_append, List.filterMap_append,
    List.filterMap_congr hbefore, hat, List.filterMap_map, hafter,
    filterMap_getElem?_range _ (by rw [List.length_drop]; omega), List.drop_take,
    Nat.add_sub_cancel_left, List.append_assoc]

/-- **Descending edits.**  If every edit does the right thing on a list that is still the
    original one up to its position, all of them together do. -/
theorem foldl_descending {apply : List α → ε → List α} {position : ε → ℕ}
    {left : ε → Option α} {l : List α} {edits : List ε}
    (happly : ∀ e ∈ edits, ∀ m, m.take (position e + 1) = l.take (position e + 1) →
      apply m e = editAt (position e) (left e) m)
    (hdesc : edits.Pairwise fun e e' => position e' < position e)
    (hlt : ∀ e ∈ edits, position e < l.length) :
    edits.foldl apply l =
      (List.range l.length).filterMap
        (edited l (edits.map fun e => (position e, left e))) := by
  -- Below `b` the list is the original one, from `b` on it is settled.
  suffices hgen : ∀ (b : ℕ) (t : List α), b ≤ l.length → (∀ e ∈ edits, position e < b) →
      edits.foldl apply (l.take b ++ t) =
        (List.range b).filterMap (edited l (edits.map fun e => (position e, left e))) ++ t by
    have h := hgen l.length [] le_rfl hlt
    simpa using h
  clear hlt
  induction edits with
  | nil =>
    intro b t hb _
    have hnone : edited l (([] : List ε).map fun e => (position e, left e)) = (l[·]?) := by
      funext k
      rfl
    rw [hnone, filterMap_getElem?_range l hb]
    rfl
  | cons e edits ih =>
    intro b t hb hbelow
    have hi : position e < b := hbelow e List.mem_cons_self
    obtain ⟨hhead, htail⟩ := List.pairwise_cons.mp hdesc
    have hlen : position e + 1 ≤ (l.take b).length := by rw [List.length_take]; omega
    have hunchanged : (l.take b ++ t).take (position e + 1) = l.take (position e + 1) := by
      rw [List.take_append_of_le_length hlen, List.take_take, Nat.min_eq_left (by omega)]
    have hstep : apply (l.take b ++ t) e =
        l.take (position e) ++
          ((left e).toList ++ (l.take b).drop (position e + 1) ++ t) := by
      rw [happly e List.mem_cons_self _ hunchanged, editAt,
        List.take_append_of_le_length (by omega), List.take_take, Nat.min_eq_left (by omega),
        List.drop_append_of_le_length hlen]
      simp only [List.append_assoc]
    have hrest := ih (fun e' he' => happly e' (List.mem_cons_of_mem e he')) htail (position e)
      ((left e).toList ++ (l.take b).drop (position e + 1) ++ t) (by omega) hhead
    have hmap : ∀ x ∈ edits.map fun e => (position e, left e), x.1 < position e := by
      intro x hx
      obtain ⟨e', he', rfl⟩ := List.mem_map.mp hx
      exact hhead e' he'
    rw [List.foldl_cons, hstep, hrest, List.map_cons, filterMap_edited_cons _ hi hb hmap]
    simp only [List.append_assoc]

/-! ### Ascending insertions -/

/-- An insertion behind the first part of a list. -/
theorem insertIdx_length (before after : List α) (x : α) :
    (before ++ after).insertIdx before.length x = before ++ x :: after := by
  induction before with
  | nil => rfl
  | cons y before ih =>
    show y :: (before ++ after).insertIdx before.length x = _
    rw [ih]
    rfl

/-- **Ascending insertions.**  If every insertion does the right thing on a list long enough
    for its position, the insertions in order of the final position complete the old elements
    to the final list.  The last element may be inserted by appending. -/
theorem foldl_ascending {apply : List α → φ × ℕ → List α} {new : φ → Bool} {value : φ → α}
    {final : List φ}
    (happly : ∀ x ∈ final.zipIdx, new x.1 = true → ∀ m, x.2 ≤ m.length →
      (x.2 + 1 = final.length → m.length = x.2) → apply m x = m.insertIdx x.2 (value x.1)) :
    (final.zipIdx.filter (new ·.1)).foldl apply ((final.filter (!new ·)).map value) =
      final.map value := by
  suffices hgen : ∀ (done todo : List φ), done ++ todo = final →
      ((todo.zipIdx done.length).filter (new ·.1)).foldl apply
        (done.map value ++ (todo.filter (!new ·)).map value) = final.map value from
    hgen [] final rfl
  intro done todo
  induction todo generalizing done with
  | nil =>
    rintro rfl
    simp
  | cons x todo ih =>
    intro hfinal
    have hnext := ih (done ++ [x]) (by rw [List.append_assoc]; exact hfinal)
    rw [List.length_append, List.length_singleton] at hnext
    rw [List.zipIdx_cons]
    cases hx : new x with
    | false =>
      simp only [List.filter_cons, hx, Bool.not_false, if_true, Bool.false_eq_true, if_false]
      simpa using hnext
    | true =>
      simp only [List.filter_cons, hx, Bool.not_true, if_true, Bool.false_eq_true, if_false,
        List.foldl_cons]
      have hmem : (x, done.length) ∈ final.zipIdx := by
        rw [List.mem_zipIdx_iff_getElem?, ← hfinal]
        simp
      have hstep := happly _ hmem hx (done.map value ++ (todo.filter (!new ·)).map value)
        (by simp) (by
          intro hlast
          have : todo = [] := by
            rw [← hfinal, List.length_append, List.length_cons] at hlast
            exact List.eq_nil_of_length_eq_zero (by omega)
          simp [this])
      have hinsert : (done.map value ++ (todo.filter (!new ·)).map value).insertIdx done.length
          (value x) = (done ++ [x]).map value ++ (todo.filter (!new ·)).map value := by
        have h := insertIdx_length (done.map value) ((todo.filter (!new ·)).map value) (value x)
        rw [List.length_map] at h
        rw [h]
        simp
      rw [hstep, hinsert]
      exact hnext

/-- Insertions add one element each. -/
theorem length_foldl_insert {apply : List α → ε → List α} {edits : List ε}
    (happly : ∀ e ∈ edits, ∀ m, (apply m e).length = m.length + 1) (l : List α) :
    (edits.foldl apply l).length = l.length + edits.length := by
  induction edits generalizing l with
  | nil => rfl
  | cons e edits ih =>
    rw [List.foldl_cons, ih (fun e' he' => happly e' (List.mem_cons_of_mem e he')),
      happly e List.mem_cons_self, List.length_cons]
    omega

end ListEdits
