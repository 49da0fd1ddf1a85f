import MtaHooks.Hooks.HeaderEdits

namespace MtaHooks

open ListEdits

/-!
# The header edits of a raw replacement

The matcher walks the original headers and the new fields once, and keeps an original where it is
met again in the rest.  The frames are applied by the MTA one after the other, so deletions go
from the end and insertions from the front.

* `fieldEdits_ok` — the edits are the deletions of the originals that were not kept, the last
  first, and the insertions of the new fields;
* `foldl_fieldEdits` — they leave the MTA with the fields, in visible form.
-/

namespace Hooks

/-- A raw field in milter-visible form, if it has one. -/
def visibleField (leadingSpace : Bool) (field : Bytes × Bytes) : Option (Bytes × Bytes) :=
  (visibleValue leadingSpace field.2).map (field.1, ·)

/-- A raw field as the MTA shows it once it is inserted. -/
def shownField (leadingSpace : Bool) (field : Bytes × Bytes) : Bytes × Bytes :=
  (field.1, (visibleValue leadingSpace field.2).getD field.2)

/-- A field of the replacement; `isNew` when no original is kept for it. -/
structure Placed where
  field : Bytes × Bytes
  isNew : Bool

/-- The insertion of a field at its position. -/
def insertionOf (x : Placed × ℕ) : Modification :=
  .insertRawHeader (UInt32.ofNat x.2) x.1.field.1 x.1.field.2

/-- The insertions of the new fields. -/
def insertionsOf (fields : List Placed) : List Modification :=
  (fields.zipIdx.filter (·.1.isNew)).map insertionOf

/-! ### One field -/

/-- A matched original is the field, and no original before the cursor. -/
theorem matched_eq_some {ls : Bool} {original : List (Bytes × Bytes)} {cursor index : ℕ}
    {field : Bytes × Bytes} (h : matched ls original cursor field = some index) :
    cursor ≤ index ∧ index < original.length ∧ original[index]? = visibleField ls field := by
  obtain ⟨value, hvalue, hhead⟩ := Option.bind_eq_some_iff.mp h
  have hcursor := List.head?_dropWhile_not (· < cursor) (candidates original (field.1, value))
  rw [hhead] at hcursor
  have hmem := (List.dropWhile_sublist _).mem (List.mem_of_head? hhead)
  obtain ⟨hrange, hsome⟩ := List.mem_filter.mp hmem
  refine ⟨by simpa using hcursor, List.mem_range.mp hrange, ?_⟩
  rw [of_decide_eq_true hsome, visibleField, hvalue]
  rfl

/-- What the loop has found for the fields so far: the positions of the originals kept, in
    order, and the fields to insert. -/
structure Matches (ls : Bool) (original : List (Bytes × Bytes)) (m : Matching)
    (done : List Placed) (kept : List ℕ) : Prop where
  length : m.retained.length = original.length
  retained : ∀ i < original.length, m.retained[i]? = some (decide (i ∈ kept))
  ascending : kept.Pairwise (· < ·)
  below : ∀ i ∈ kept, i < m.cursor ∧ i < original.length
  originals : kept.map (original[·]?) = (done.filter (!·.isNew)).map (visibleField ls ·.field)
  inserted : m.inserted = insertionsOf done

/-- Before the first field nothing is retained, and nothing is done. -/
theorem Matches.start (ls : Bool) (original : List (Bytes × Bytes)) :
    Matches ls original { retained := List.replicate original.length false } [] [] where
  length := List.length_replicate
  retained := fun i hi => by simp [hi]
  ascending := .nil
  below := fun _ hi => nomatch hi
  originals := rfl
  inserted := rfl

/-- A placed field adds its own insertion, if it is new. -/
theorem insertionsOf_concat (done : List Placed) (x : Placed) :
    insertionsOf (done ++ [x]) =
      insertionsOf done ++ if x.isNew then [insertionOf (x, done.length)] else [] := by
  unfold insertionsOf
  rw [List.zipIdx_append, List.filter_append, List.map_append]
  cases hx : x.isNew <;> simp [hx]

/-- One step of the loop. -/
theorem Matches.step {ls : Bool} {original : List (Bytes × Bytes)} {m m' : Matching}
    {done : List Placed} {kept : List ℕ} {field : Bytes × Bytes}
    (h : Matches ls original m done kept)
    (hstep : matchField ls original m (field, done.length) = .ok m') :
    ∃ isNew kept', Matches ls original m' (done ++ [⟨field, isNew⟩]) kept' := by
  unfold matchField at hstep
  cases hmatch : matched ls original m.cursor field with
  | some index =>
    obtain ⟨hcursor, hlt, hsome⟩ := matched_eq_some hmatch
    simp only [hmatch] at hstep
    obtain rfl := Except.ok.inj hstep
    refine ⟨false, kept ++ [index], ?_, ?_, ?_, ?_, ?_, ?_⟩
    · rw [List.length_set]
      exact h.length
    · intro i hi
      rw [List.getElem?_set]
      by_cases heq : index = i
      · subst heq
        simp [h.length, hlt]
      · rw [if_neg heq, h.retained i hi]
        simp [Ne.symm heq]
    · rw [List.pairwise_append]
      refine ⟨h.ascending, List.pairwise_singleton _ _, fun i hi j hj => ?_⟩
      obtain rfl := List.mem_singleton.mp hj
      exact Nat.lt_of_lt_of_le (h.below i hi).1 hcursor
    · intro i hi
      show i < index + 1 ∧ _
      rcases List.mem_append.mp hi with hi | hi
      · have := h.below i hi
        omega
      · obtain rfl := List.mem_singleton.mp hi
        exact ⟨Nat.lt_succ_self i, hlt⟩
    · rw [List.map_append, h.originals, List.filter_append, List.map_append]
      simp [hsome]
    · rw [insertionsOf_concat]
      simpa using h.inserted
  | none =>
    simp only [hmatch] at hstep
    obtain ⟨name, hname, hstep⟩ := Result.bind_ok_iff.mp hstep
    obtain ⟨value, hvalue, hstep⟩ := Result.bind_ok_iff.mp hstep
    obtain rfl := Except.ok.inj hstep
    obtain ⟨rfl, -⟩ := text_ok hname
    obtain ⟨rfl, -⟩ := text_ok hvalue
    refine ⟨true, kept, h.length, h.retained, h.ascending, h.below, ?_, ?_⟩
    · rw [h.originals, List.filter_append]
      simp
    · show m.inserted ++ _ = _
      rw [insertionsOf_concat, h.inserted]
      rfl

/-- A field that an original is kept for has a visible form. -/
theorem Matches.visible {ls : Bool} {original : List (Bytes × Bytes)} {m : Matching}
    {done : List Placed} {kept : List ℕ} (h : Matches ls original m done kept) {x : Placed}
    (hx : x ∈ done) (hold : x.isNew = false) : (visibleField ls x.field).isSome := by
  have hfilter : x ∈ done.filter (!·.isNew) := List.mem_filter.mpr ⟨hx, by simp [hold]⟩
  have hmem : visibleField ls x.field ∈ kept.map (original[·]?) := by
    rw [h.originals]
    exact List.mem_map_of_mem (f := (visibleField ls ·.field)) hfilter
  obtain ⟨i, hi, heq⟩ := List.mem_map.mp hmem
  rw [← heq, List.getElem?_eq_getElem (h.below i hi).2]
  rfl

/-- The loop over the fields. -/
theorem Matches.run {ls : Bool} {original fields : List (Bytes × Bytes)} {m m' : Matching}
    {done : List Placed} {kept : List ℕ} (h : Matches ls original m done kept)
    (hrun : (fields.zipIdx done.length).foldlM (matchField ls original) m = .ok m') :
    ∃ done' kept', done'.map Placed.field = done.map Placed.field ++ fields ∧
      Matches ls original m' done' kept' := by
  induction fields generalizing m done kept with
  | nil =>
    obtain rfl := Except.ok.inj hrun
    exact ⟨done, kept, by simp, h⟩
  | cons field fields ih =>
    rw [List.zipIdx_cons, List.foldlM_cons] at hrun
    obtain ⟨m₁, hstep, hrun⟩ := Result.bind_ok_iff.mp hrun
    obtain ⟨isNew, kept₁, h₁⟩ := h.step hstep
    have hlength : done.length + 1 = (done ++ [(⟨field, isNew⟩ : Placed)]).length := by simp
    rw [hlength] at hrun
    obtain ⟨done', kept', hfields, h'⟩ := ih h₁ hrun
    exact ⟨done', kept', by rw [hfields]; simp, h'⟩

/-! ### The edits -/

/-- The positions that are not kept, the last first. -/
def droppedOf (n : ℕ) (kept : List ℕ) : List ℕ := (List.range n).reverse.filter (· ∉ kept)

/-- The original fields that the matching drops are those that no placed field keeps. -/
theorem Matches.dropped_eq {ls : Bool} {original : List (Bytes × Bytes)} {m : Matching}
    {done : List Placed} {kept : List ℕ} (h : Matches ls original m done kept) :
    dropped m.retained = droppedOf original.length kept := by
  unfold dropped droppedOf
  rw [h.length]
  refine List.filter_congr fun i hi => ?_
  rw [List.mem_reverse, List.mem_range] at hi
  rw [h.retained i hi]
  simp

/-- The deletion of an original field is the change of its header to nothing. -/
theorem rawDelete_ok {original : List (Bytes × Bytes)} {i : ℕ} {m : Modification}
    (h : rawDelete original i = .ok m) : m = changeOf original (i, none) := by
  obtain ⟨header, hheader, h⟩ := Result.bind_ok_iff.mp h
  obtain ⟨name, hname, h⟩ := Result.bind_ok_iff.mp h
  obtain rfl := Except.ok.inj h
  obtain ⟨rfl, -⟩ := text_ok hname
  have hsome : original[i]? = some header := okOr_eq_ok.mp hheader
  have hcount : rawOccurrence original i header.1 =
      UInt32.ofNat ((original.take i).countP (Edits.sameName header.1)) + 1 := by
    have hsplit : (original.take (i + 1)).countP (Edits.sameName header.1) =
        (original.take i).countP (Edits.sameName header.1) + 1 := by
      rw [List.take_add_one, hsome, List.countP_append]
      simp [Edits.sameName]
    show UInt32.ofNat ((original.take (i + 1)).countP (Edits.sameName header.1)) = _
    rw [hsplit, UInt32.ofNat_add]
    rfl
  unfold changeOf
  rw [hsome, hcount]
  rfl

/-- **The header edits of a raw replacement.** -/
theorem fieldEdits_ok {ls : Bool} {original fields : List (Bytes × Bytes)}
    {ms : List Modification} (h : fieldEdits ls original fields = .ok ms) :
    ∃ m placed kept, placed.map Placed.field = fields ∧ Matches ls original m placed kept ∧
      ms = ((droppedOf original.length kept).map fun i => changeOf original (i, none)) ++
        insertionsOf placed := by
  obtain ⟨m, hrun, h⟩ := Result.bind_ok_iff.mp h
  obtain ⟨deletes, hdeletes, h⟩ := Result.bind_ok_iff.mp h
  obtain rfl := Except.ok.inj h
  obtain ⟨placed, kept, hfields, hm⟩ := (Matches.start ls original).run hrun
  refine ⟨m, placed, kept, hfields, hm, ?_⟩
  rw [Result.mapM_eq_map hdeletes fun i _ b hb => rawDelete_ok hb, hm.dropped_eq, hm.inserted]

/-! ### What they do -/

/-- The deletions leave the originals kept. -/
theorem foldl_deletions {ls : Bool} {original : List (Bytes × Bytes)} {kept : List ℕ}
    (hfew : original.length < 2 ^ 32) (hasc : kept.Pairwise (· < ·))
    (hlt : ∀ i ∈ kept, i < original.length) :
    ((droppedOf original.length kept).map fun i => changeOf original (i, none)).foldl
        (Mta.headers ls) original = kept.filterMap (original[·]?) := by
  have hbound : ∀ i ∈ droppedOf original.length kept, i < original.length := by
    intro i hi
    simpa using (List.mem_filter.mp hi).1
  have hdesc : (droppedOf original.length kept).Pairwise fun i j => j < i :=
    (List.pairwise_reverse.mpr List.pairwise_lt_range).filter _
  have hedits : (droppedOf original.length kept).foldl
      (fun l i => Mta.headers ls l (changeOf original (i, none))) original =
      (List.range original.length).filterMap (edited original
        ((droppedOf original.length kept).map fun i => (i, leftOf original (i, none)))) :=
    foldl_descending (fun i hi m hm => headers_changeOf hfew (hbound i hi) hm) hdesc hbound
  have hkept : (List.range original.length).filter (· ∈ kept) = kept := by
    refine (List.pairwise_lt_range.filter _).eq_of_mem_iff hasc fun i => ?_
    rw [List.mem_filter, List.mem_range, decide_eq_true_eq]
    exact ⟨fun h => h.2, fun h => ⟨hlt i h, h⟩⟩
  have hpositions : ((droppedOf original.length kept).map
      fun i => (i, leftOf original (i, none))).map Prod.fst = droppedOf original.length kept := by
    rw [List.map_map]
    exact List.map_id _
  rw [List.foldl_map, hedits]
  conv_rhs => rw [← hkept]
  rw [List.filterMap_filter]
  refine List.filterMap_congr fun i hi => ?_
  by_cases hmem : i ∈ kept
  · have hnone : ((droppedOf original.length kept).map
        fun i => (i, leftOf original (i, none))).lookup i = none := by
      rw [List.lookup_eq_none_iff]
      intro x hx
      have hx' : x.1 ∈ droppedOf original.length kept := by
        rw [← hpositions]
        exact List.mem_map_of_mem hx
      have hdropped : x.1 ∉ kept := by simpa using (List.mem_filter.mp hx').2
      simp only [bne_iff_ne, ne_eq]
      rintro rfl
      exact hdropped hmem
    rw [edited, hnone, if_pos (decide_eq_true hmem)]
  · have hdropped : i ∈ droppedOf original.length kept := by
      simpa [droppedOf, hmem] using hi
    have hsome := lookup_of_mem (by rw [hpositions]; exact hdesc.imp Nat.ne_of_gt)
      (List.mem_map_of_mem (f := fun i => (i, leftOf original (i, none))) hdropped)
    rw [edited, hsome, if_neg (by simpa using hmem)]
    unfold leftOf
    cases original[i]? <;> rfl

/-- The insertions complete the originals kept to all fields. -/
theorem foldl_insertionsOf {ls : Bool} {placed : List Placed} (hfew : placed.length ≤ 2 ^ 32) :
    (insertionsOf placed).foldl (Mta.headers ls)
        ((placed.filter (!·.isNew)).map (shownField ls ·.field)) =
      placed.map (shownField ls ·.field) := by
  unfold insertionsOf
  rw [List.foldl_map]
  refine @foldl_ascending _ _ _ Placed.isNew _ _ fun x hx hnew l hlen _ => ?_
  have hposition : x.2 < 2 ^ 32 := by
    have h := List.mem_zipIdx hx
    omega
  have hindex : (UInt32.ofNat x.2).toNat = x.2 := by
    rw [UInt32.toNat_ofNat']
    exact Nat.mod_eq_of_lt hposition
  show Mta.insertAt (UInt32.ofNat x.2).toNat (shownField ls x.1.field) l = _
  rw [hindex, Mta.insertAt, Nat.min_eq_left hlen]

/-- A field with a visible form is shown in that form. -/
theorem visibleField_eq_some {ls : Bool} {field h : Bytes × Bytes}
    (hvisible : visibleField ls field = some h) : shownField ls field = h := by
  obtain ⟨value, hvalue, rfl⟩ := Option.map_eq_some_iff.mp hvisible
  rw [shownField, hvalue]
  rfl

/-- **The header edits of a raw replacement** leave the MTA with the fields, in order. -/
theorem foldl_fieldEdits {ls : Bool} {original fields : List (Bytes × Bytes)}
    {ms : List Modification} (h : fieldEdits ls original fields = .ok ms)
    (hfew : original.length < 2 ^ 32) (hfields : fields.length ≤ 2 ^ 32) :
    ms.foldl (Mta.headers ls) original = fields.map (shownField ls) := by
  obtain ⟨m, placed, kept, rfl, hm, rfl⟩ := fieldEdits_ok h
  rw [List.length_map] at hfields
  have hkept : kept.filterMap (original[·]?) =
      (placed.filter (!·.isNew)).map (shownField ls ·.field) := by
    have hshown : (placed.filter (!·.isNew)).map (visibleField ls ·.field) =
        (placed.filter (!·.isNew)).map (some <| shownField ls ·.field) := by
      refine List.map_congr_left fun x hx => ?_
      obtain ⟨hx, hold⟩ := List.mem_filter.mp hx
      obtain ⟨value, hvalue⟩ := Option.isSome_iff_exists.mp (hm.visible hx (by simpa using hold))
      rw [hvalue, visibleField_eq_some hvalue]
    have hmap : kept.filterMap (original[·]?) = (kept.map (original[·]?)).filterMap id := by
      rw [List.filterMap_map]
      rfl
    rw [hmap, hm.originals, hshown, List.filterMap_map]
    exact congrFun List.filterMap_eq_map _
  rw [List.foldl_append, foldl_deletions hfew hm.ascending fun i hi => (hm.below i hi).2, hkept,
    foldl_insertionsOf hfields, List.map_map]
  rfl

end Hooks

end MtaHooks
