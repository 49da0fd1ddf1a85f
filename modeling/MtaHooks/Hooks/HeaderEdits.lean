import MtaHooks.Hooks.RecipientEdits

namespace MtaHooks

open ListEdits

/-!
# Structured header edits

* `foldl_changes` — changes and deletes, the highest position first, edit the headers they are
  about;
* `foldl_inserts` — insertions by final position complete what is left to the list the scanner
  asked for;
* `headers_asked_iff` — the MTA is left with the headers the scanner asked for exactly when no
  `set` writes an empty value.
-/

namespace Hooks

open Edits

/-! ### Changes and deletes -/

/-- The modification that changes or deletes a header. -/
def changeOf (headers : List (Bytes × Bytes)) (edit : ℕ × Option Str) : Modification :=
  let name := ((headers[edit.1]?).map Prod.fst).getD []
  .changeHeader (UInt32.ofNat ((headers.take edit.1).countP (sameName name)) + 1) name
    (edit.2.getD [])

/-- What a change or delete leaves of its header. -/
def leftOf (headers : List (Bytes × Bytes)) (edit : ℕ × Option Str) : Option (Bytes × Bytes) :=
  headers[edit.1]?.bind (Mta.changeValue (edit.2.getD []))

/-- Accepted changes are about distinct headers of the message. -/
theorem changes_ok {headers : List (Bytes × Bytes)} {edits : List (ℕ × Option Str)}
    {seen : List ℕ} {ms : List Modification} (h : changes headers edits seen = .ok ms) :
    ms = edits.map (changeOf headers) ∧ (edits.map Prod.fst).Nodup ∧
      ∀ e ∈ edits, e.1 ∉ seen ∧ e.1 < headers.length := by
  induction edits generalizing seen ms with
  | nil =>
    obtain rfl := Except.ok.inj h
    exact ⟨rfl, List.nodup_nil, fun _ he => nomatch he⟩
  | cons edit edits ih =>
    obtain ⟨index, value⟩ := edit
    obtain ⟨_, hfresh, h⟩ := Result.bind_ok_iff.mp h
    obtain ⟨⟨name, count⟩, hoccurrence, h⟩ := Result.bind_ok_iff.mp h
    obtain ⟨ms', hms, h⟩ := Result.bind_ok_iff.mp h
    obtain rfl := Except.ok.inj h
    obtain ⟨rfl, hnodup, hrest⟩ := ih hms
    obtain ⟨header, hheader, hoccurrence⟩ := Result.bind_ok_iff.mp hoccurrence
    obtain ⟨name', hname, hoccurrence⟩ := Result.bind_ok_iff.mp hoccurrence
    obtain ⟨rfl, rfl⟩ := Prod.mk.inj (Except.ok.inj hoccurrence)
    obtain ⟨rfl, -⟩ := text_ok hname
    have hsome : headers[index]? = some header := okOr_eq_ok.mp hheader
    refine ⟨?_, ?_, ?_⟩
    · rw [List.map_cons]
      unfold changeOf
      rw [hsome]
      rfl
    · rw [List.map_cons, List.nodup_cons]
      refine ⟨fun hmem => ?_, hnodup⟩
      obtain ⟨e, he, rfl⟩ := List.mem_map.mp hmem
      exact (hrest e he).1 List.mem_cons_self
    · intro e he
      rcases List.mem_cons.mp he with rfl | he
      · exact ⟨rejectIf_eq_ok.mp hfresh, (List.getElem?_eq_some_iff.mp hsome).1⟩
      · obtain ⟨hseen, hlt⟩ := hrest e he
        exact ⟨fun h => hseen (List.mem_cons_of_mem index h), hlt⟩

/-- A count below `2 ^ 32` is its own occurrence number. -/
theorem occurrence_toNat {n : ℕ} (hn : n + 1 < 2 ^ 32) : (UInt32.ofNat n + 1).toNat = n + 1 := by
  rw [UInt32.toNat_add, UInt32.toNat_ofNat']
  show (n % 2 ^ 32 + 1) % 2 ^ 32 = n + 1
  omega

/-- On a list that is still the original up to its header, a change edits that header. -/
theorem headers_changeOf {ls : Bool} {headers m : List (Bytes × Bytes)} {e : ℕ × Option Str}
    (hfew : headers.length < 2 ^ 32) (he : e.1 < headers.length)
    (hm : m.take (e.1 + 1) = headers.take (e.1 + 1)) :
    Mta.headers ls m (changeOf headers e) = editAt e.1 (leftOf headers e) m := by
  have hsome : headers[e.1]? = some headers[e.1] := List.getElem?_eq_getElem he
  have hat : m[e.1]? = some headers[e.1] := by
    have h := congrArg (·[e.1]?) hm
    simpa [List.getElem?_take, he] using h
  have htake : m.take e.1 = headers.take e.1 := by
    have h := congrArg (List.take e.1) hm
    simpa [List.take_take] using h
  have hcount : (headers.take e.1).countP (sameName headers[e.1].1) + 1 < 2 ^ 32 := by
    have := List.countP_le_length (p := sameName headers[e.1].1) (l := headers.take e.1)
    rw [List.length_take] at this
    omega
  unfold changeOf leftOf
  rw [hsome]
  show editOccurrence (sameName headers[e.1].1) _ (UInt32.ofNat
    ((headers.take e.1).countP (sameName headers[e.1].1)) + 1).toNat m = _
  rw [occurrence_toNat hcount, ← htake]
  exact editOccurrence_eq_editAt hat (eqIgnoreAsciiCase_refl _)

/-- **Changes and deletes edit the headers they are about.** -/
theorem foldl_changes {ls : Bool} {headers : List (Bytes × Bytes)} {edits : List (ℕ × Option Str)}
    {ms : List Modification} (hfew : headers.length < 2 ^ 32)
    (hsorted : edits.Pairwise fun e e' => e'.1 ≤ e.1) (h : changes headers edits [] = .ok ms) :
    ms.foldl (Mta.headers ls) headers =
      (List.range headers.length).filterMap
        (edited headers (edits.map fun e => (e.1, leftOf headers e))) := by
  obtain ⟨rfl, hnodup, hlt⟩ := changes_ok h
  have hdesc : edits.Pairwise fun e e' => e'.1 < e.1 := by
    have hne : edits.Pairwise fun e e' => e.1 ≠ e'.1 := List.pairwise_map.mp hnodup
    exact (hsorted.and hne).imp fun ⟨hle, hne⟩ => Nat.lt_of_le_of_ne hle (Ne.symm hne)
  rw [List.foldl_map]
  exact foldl_descending (fun e he m hm => headers_changeOf hfew (hlt e he).2 hm) hdesc
    fun e he => (hlt e he).2

/-! ### Insertions -/

/-- The added header of a slot. -/
def slotHeader (added : List (Option Header)) : Slot → Header
  | .added i => (added[i]?.join).getD ⟨[], []⟩
  | .original _ => ⟨[], []⟩

/-- The slot shows an added element. -/
def isAdded (s : Slot) : Bool := s.added?.isSome

/-- Accepted insertions are those of the added slots. -/
theorem inserts_ok {length : ℕ} {slots : List (Slot × ℕ)} {added : List (Option Header)}
    {ms : List Modification} (hnodup : (slots.map Prod.fst).Nodup)
    (h : inserts length slots added = .ok ms) :
    ms = (slots.filter (isAdded ·.1)).map fun z =>
      insertion length z.2 (slotHeader added z.1) := by
  induction slots generalizing added ms with
  | nil =>
    obtain rfl := Except.ok.inj h
    rfl
  | cons slot slots ih =>
    obtain ⟨slot, position⟩ := slot
    rw [List.map_cons, List.nodup_cons] at hnodup
    cases slot with
    | original i => exact ih hnodup.2 h
    | added i =>
      obtain ⟨header, hheader, h⟩ := Result.bind_ok_iff.mp h
      obtain ⟨ms', hms, h⟩ := Result.bind_ok_iff.mp h
      obtain rfl := Except.ok.inj h
      rw [ih hnodup.2 hms]
      have hfirst : slotHeader added (.added i) = header := by
        rw [slotHeader, okOr_eq_ok.mp hheader]
        rfl
      have hrest : ∀ z ∈ slots.filter (isAdded ·.1),
          slotHeader (added.set i none) z.1 = slotHeader added z.1 := by
        intro z hz
        obtain ⟨s, p⟩ := z
        cases s with
        | original j => rfl
        | added j =>
          have hne : i ≠ j := by
            rintro rfl
            exact hnodup.1 (List.mem_map.mpr ⟨_, (List.mem_filter.mp hz).1, rfl⟩)
          simp only [slotHeader, List.getElem?_set_ne hne]
      show _ :: List.map _ _ = insertion length position (slotHeader added (.added i)) ::
        List.map _ _
      rw [hfirst, List.map_congr_left fun z hz => by rw [hrest z hz]]

/-- Every insertion adds one header. -/
theorem length_headers_insertion (ls : Bool) (length position : ℕ) (header : Header)
    (m : List (Bytes × Bytes)) :
    (Mta.headers ls m (insertion length position header)).length = m.length + 1 := by
  unfold insertion
  split
  · simp [Mta.headers]
  · show (m.insertIdx _ _).length = _
    rw [List.length_insertIdx_of_le_length (Nat.min_le_right _ _)]

/-- Each insertion adds one header. -/
theorem length_foldl_insertions (ls : Bool) (length : ℕ) (added : List (Option Header))
    (slots : List (Slot × ℕ)) (m : List (Bytes × Bytes)) :
    ((slots.map fun z => insertion length z.2 (slotHeader added z.1)).foldl (Mta.headers ls)
      m).length = m.length + slots.length := by
  rw [List.foldl_map]
  exact length_foldl_insert (fun z _ m => length_headers_insertion ls length z.2 _ m) m

/-- **Insertions by final position** complete the old headers to the final list. -/
theorem foldl_inserts {ls : Bool} {slots : List Slot} {added : List (Option Header)}
    {value : Slot → Bytes × Bytes} (hfew : slots.length ≤ 2 ^ 32)
    (hvalue : ∀ i, value (.added i) = Scanner.field (slotHeader added (.added i))) :
    ((slots.zipIdx.filter (isAdded ·.1)).map fun z =>
        insertion slots.length z.2 (slotHeader added z.1)).foldl (Mta.headers ls)
        ((slots.filter (!isAdded ·)).map value) = slots.map value := by
  rw [List.foldl_map]
  refine foldl_ascending fun z hz hnew m hlen hlast => ?_
  obtain ⟨s, position⟩ := z
  have hposition : position < slots.length := by
    have h := List.mem_zipIdx hz
    omega
  cases s with
  | original i => exact nomatch hnew
  | added i =>
    show Mta.headers ls m (insertion slots.length position _) = m.insertIdx position (value _)
    rw [hvalue]
    unfold insertion
    by_cases hend : position = slots.length - 1
    · have hm : m.length = position := hlast (by show position + 1 = _; omega)
      rw [if_pos hend, ← hm, List.insertIdx_length_self]
      rfl
    · rw [if_neg hend]
      show Mta.insertAt (UInt32.ofNat position).toNat _ m = _
      have hp : (UInt32.ofNat position).toNat = position := by
        rw [UInt32.toNat_ofNat']
        exact Nat.mod_eq_of_lt (by omega)
      rw [hp, Mta.insertAt, Nat.min_eq_left hlen]
      rfl

/-! ### The headers of an accepted response -/

/-- The header changes of a response. -/
def headerSets (ops : Operations) : List (ℕ × Str) := ops.sets.filterMap Scanner.headerSet

/-- The headers after the changes of their values. -/
def changedHeaders (changes : List (ℕ × Str)) (l : List (Bytes × Bytes)) : List (Bytes × Bytes) :=
  changes.foldl (fun l c => l.modify c.1 (Scanner.withValue c.2)) l

/-- The `set` operations replace the values of their headers. -/
theorem foldl_setHeader (sets : List SetOp) (l : List (Bytes × Bytes)) :
    sets.foldl Scanner.setHeader l = changedHeaders (sets.filterMap Scanner.headerSet) l := by
  unfold changedHeaders
  induction sets generalizing l with
  | nil => rfl
  | cons op sets ih =>
    rw [List.foldl_cons, ih]
    unfold Scanner.setHeader
    cases hset : Scanner.headerSet op with
    | none => rw [List.filterMap_cons_none hset]
    | some c => rw [List.filterMap_cons_some hset, List.foldl_cons]

/-- Changes of values keep the number of headers. -/
theorem length_changedHeaders (changes : List (ℕ × Str)) (l : List (Bytes × Bytes)) :
    (changedHeaders changes l).length = l.length := by
  unfold changedHeaders
  induction changes generalizing l with
  | nil => rfl
  | cons c changes ih => rw [List.foldl_cons, ih, List.length_modify]

section Translated

variable {b64 : Base64} {session : Session} {stage : Stage} {ops : Operations} {a : Answered}
  {added edits : Edits} {modifications extra : List Modification} {d : Decision}

/-- Without a raw replacement no `set` is about the raw message. -/
theorem not_raw_of_mem (hraw : ops.hasRaw = false) {op : SetOp} (hop : op ∈ ops.sets) :
    op.path ≠ ascii "/rawMessage" := by
  intro hpath
  have hany : ops.hasRaw = true := List.any_eq_true.mpr ⟨op, hop, by simpa using hpath⟩
  rw [hraw] at hany
  exact nomatch hany

/-- Without a raw replacement the loop over `set` collects the header changes. -/
theorem Translated.answered_changes
    (h : Translated b64 session stage ops a added edits modifications extra d)
    (hraw : ops.hasRaw = false) :
    a.raw = none ∧ a.edits.headerChanges = headerSets ops := by
  have hloop := Result.foldlM_simulates
    (g := fun changes op => changes ++ (Scanner.headerSet op).toList) (b := ([] : List (ℕ × Str)))
    (R := fun a changes => a.raw = none ∧ a.edits.headerChanges = changes) h.sets ⟨rfl, rfl⟩
    fun a changes op hop a' ⟨hnone, hchanges⟩ hstep => by
      obtain ⟨hsame, hedits⟩ := applySet_ok (not_raw_of_mem hraw hop) hstep
      refine ⟨hsame.trans hnone, ?_⟩
      rcases hedits with hset | ⟨hsame', hset⟩
      · rw [(Edits.set_ok hset).2.2.1, hchanges]
      · rw [hsame', hset hraw, hchanges]
        exact (List.append_nil _).symm
  have hcollect : ∀ (sets : List SetOp) (start : List (ℕ × Str)),
      sets.foldl (fun changes op => changes ++ (Scanner.headerSet op).toList) start =
        start ++ sets.filterMap Scanner.headerSet := by
    intro sets
    induction sets with
    | nil => intro start; exact (List.append_nil _).symm
    | cons op sets ih =>
      intro start
      rw [List.foldl_cons, ih]
      cases hset : Scanner.headerSet op with
      | none => simp [hset]
      | some c => simp [hset]
  exact ⟨hloop.1, hloop.2.trans (hcollect ops.sets [])⟩

/-- **The headers follow the scanner**; their number stays within the limit. -/
theorem Translated.headers_follow
    (h : Translated b64 session stage ops a added edits modifications extra d)
    (hraw : ops.hasRaw = false) (xs : List (Bytes × Bytes))
    (hxs : xs.length = session.message.headers.length) :
    Follows xs.length xs Scanner.field edits.headers
        (Scanner.editArray "/message/headers"
          (fun v => (Header.fromValue v).map Scanner.field) ops xs) ∧
      edits.headerChanges = headerSets ops ∧
      edits.headers.slots.length ≤ max session.message.headers.length session.limits.headers := by
  have hstart : Follows xs.length xs Scanner.field a.edits.headers xs ∧
      a.edits.headerChanges = headerSets ops ∧
      a.edits.headers.slots.length ≤
        max session.message.headers.length session.limits.headers := by
    rw [h.answered_arrays.1]
    show Follows _ _ _ (.ofLength session.message.headers.length) _ ∧ _ ∧
      (List.map _ (List.range session.message.headers.length)).length ≤ _
    rw [← hxs]
    refine ⟨⟨.ofLength _, .ofLength⟩, (h.answered_changes hraw).2, ?_⟩
    rw [List.length_map, List.length_range]
    exact Nat.le_max_left _ _
  have hadds := Result.foldlM_simulates
    (R := fun (e : Edits) l => Follows xs.length xs Scanner.field e.headers l ∧
      e.headerChanges = headerSets ops ∧
      e.headers.slots.length ≤ max session.message.headers.length session.limits.headers)
    h.adds hstart fun e l op _ e' ⟨hl, hchanges, hlen⟩ hop => by
      have hadd : e.add session op = .ok e' := by
        simpa [applyAdd, hraw] using hop
      obtain ⟨hheaders, -, hsame, hlimit⟩ := Edits.add_ok hadd
      refine ⟨hheaders.follows hl, hsame.trans hchanges, ?_⟩
      rcases hlimit with hsame' | hlimit
      · rw [hsame']
        exact hlen
      · have hgrow := hheaders.length_le
        omega
  exact Result.foldlM_simulates
    (R := fun (e : Edits) l => Follows xs.length xs Scanner.field e.headers l ∧
      e.headerChanges = headerSets ops ∧
      e.headers.slots.length ≤ max session.message.headers.length session.limits.headers)
    h.deletes hadds fun e l op _ e' ⟨hl, hchanges, hlen⟩ hop => by
      have hdelete : e.delete op.path = .ok e' := by
        simpa [applyDelete, hraw] using hop
      obtain ⟨hheaders, -, hsame⟩ := Edits.delete_ok hdelete
      have hshrink := hheaders.length_le
      exact ⟨hheaders.follows hl, hsame.trans hchanges, by omega⟩

end Translated

/-! ### Changes, deletes and the original list -/

/-- The edits of original headers are the changes and the deletions. -/
theorem mem_headerEdits {e : Edits} {x : ℕ × Option Str} :
    x ∈ e.headerEdits ↔
      (∃ c ∈ e.headerChanges, (c.1, some c.2) = x) ∨ ∃ i ∈ e.headers.deleted, (i, none) = x := by
  unfold headerEdits
  rw [List.mem_insertionSort, List.mem_append, List.mem_map, List.mem_map]

/-- Sorting keeps the positions. -/
theorem headerEdits_positions (e : Edits) :
    (e.headerEdits.map Prod.fst).Perm (e.headerChanges.map Prod.fst ++ e.headers.deleted) := by
  unfold headerEdits
  refine ((List.perm_insertionSort _ _).map Prod.fst).trans (.of_eq ?_)
  simp [Function.comp_def]

/-- They come from the last header to the first. -/
theorem headerEdits_sorted (e : Edits) :
    e.headerEdits.Pairwise fun x y => y.1 ≤ x.1 := by
  have htotal : Std.Total fun x y : ℕ × Option Str => y.1 ≤ x.1 :=
    ⟨fun x y => Nat.le_total y.1 x.1⟩
  have htrans : IsTrans (ℕ × Option Str) fun x y => y.1 ≤ x.1 := ⟨fun _ _ _ h h' => le_trans h' h⟩
  exact List.pairwise_insertionSort _ _

/-- The edits leave nothing of a deleted header and of one whose new value is empty, and the
    changed header otherwise. -/
theorem edited_headerEdits {headers : List (Bytes × Bytes)} {e : Edits}
    (hnodup : (e.headerEdits.map Prod.fst).Nodup) (k : ℕ) :
    edited headers (e.headerEdits.map fun x => (x.1, leftOf headers x)) k =
      if k ∈ e.headers.deleted ∨ (k, []) ∈ e.headerChanges then none
      else (changedHeaders e.headerChanges headers)[k]? := by
  have hkeys : ((e.headerEdits.map fun x => (x.1, leftOf headers x)).map Prod.fst).Nodup := by
    rw [List.map_map]
    exact hnodup
  have hparts := List.nodup_append.mp ((headerEdits_positions e).nodup_iff.mp hnodup)
  have hlookup {x : ℕ × Option Str} (hx : x ∈ e.headerEdits) (hk : x.1 = k) :
      edited headers (e.headerEdits.map fun x => (x.1, leftOf headers x)) k =
        leftOf headers x := by
    have hmem : (k, leftOf headers x) ∈ e.headerEdits.map fun x => (x.1, leftOf headers x) :=
      List.mem_map.mpr ⟨x, hx, by rw [hk]⟩
    rw [edited, lookup_of_mem hkeys hmem]
  by_cases hdeleted : k ∈ e.headers.deleted
  · rw [if_pos (.inl hdeleted), hlookup (mem_headerEdits.mpr (.inr ⟨k, hdeleted, rfl⟩)) rfl]
    unfold leftOf
    cases headers[k]? <;> rfl
  by_cases hchanged : ∃ value, (k, value) ∈ e.headerChanges
  · obtain ⟨value, hvalue⟩ := hchanged
    have hnew : (changedHeaders e.headerChanges headers)[k]? =
        headers[k]?.map (Scanner.withValue value) := by
      rw [changedHeaders, getElem?_foldl_modify hparts.1, lookup_of_mem hparts.1 hvalue]
    rw [hlookup (mem_headerEdits.mpr (.inl ⟨_, hvalue, rfl⟩)) rfl, hnew]
    by_cases hempty : value = []
    · rw [hempty] at hvalue ⊢
      rw [if_pos (.inr hvalue)]
      unfold leftOf
      cases headers[k]? <;> rfl
    · have hsingle : (k, []) ∉ e.headerChanges := by
        intro hother
        have h := (lookup_of_mem hparts.1 hother).symm.trans (lookup_of_mem hparts.1 hvalue)
        exact hempty (Option.some.inj h).symm
      rw [if_neg (by simp [hdeleted, hsingle])]
      unfold leftOf
      cases headers[k]? with
      | none => rfl
      | some header => simp [Mta.changeValue, Scanner.withValue, hempty]
  · have hnone : (e.headerEdits.map fun x => (x.1, leftOf headers x)).lookup k = none := by
      rw [List.lookup_eq_none_iff]
      intro x hx
      obtain ⟨y, hy, rfl⟩ := List.mem_map.mp hx
      simp only [bne_iff_ne, ne_eq]
      rintro rfl
      rcases mem_headerEdits.mp hy with ⟨c, hc, rfl⟩ | ⟨i, hi, rfl⟩
      · exact hchanged ⟨c.2, hc⟩
      · exact hdeleted hi
    have hnone' : e.headerChanges.lookup k = none := by
      rw [List.lookup_eq_none_iff]
      intro c hc
      simp only [bne_iff_ne, ne_eq]
      rintro rfl
      exact hchanged ⟨c.2, hc⟩
    have hempty : (k, []) ∉ e.headerChanges := fun h => hchanged ⟨[], h⟩
    rw [if_neg (by simp [hdeleted, hempty]), edited, hnone, changedHeaders,
      getElem?_foldl_modify hparts.1, hnone']

/-- The element a slot shows. -/
def slotValue (xs : List (Bytes × Bytes)) (e : SlotList Header) (s : Slot) : Bytes × Bytes :=
  (e.resolve xs Scanner.field s).getD ([], [])

/-- The slots stand for the list that the scanner sees. -/
theorem map_slotValue {xs l : List (Bytes × Bytes)} {e : SlotList Header}
    (h : SlotList.Shows xs Scanner.field e l) : e.slots.map (slotValue xs e) = l := by
  have hmap := congrArg (List.map fun o : Option (Bytes × Bytes) => o.getD ([], [])) h
  have hvalue : (fun s => (e.resolve xs Scanner.field s).getD ([], [])) = slotValue xs e := rfl
  simpa [Function.comp_def, hvalue] using hmap

/-- The slot of an added header stands for it. -/
theorem slotValue_added (xs : List (Bytes × Bytes)) (e : SlotList Header) (i : ℕ) :
    slotValue xs e (.added i) = Scanner.field (slotHeader e.added (.added i)) := by
  show ((e.added[i]?.join).map Scanner.field).getD ([], []) =
    Scanner.field ((e.added[i]?.join).getD ⟨[], []⟩)
  cases e.added[i]?.join <;> rfl

/-- The slots that show no added element show the originals left. -/
theorem map_slotValue_old {n : ℕ} {xs : List (Bytes × Bytes)} {e : SlotList Header}
    (hwf : SlotList.Wf n e) (hxs : xs.length = n) :
    (e.slots.filter (!isAdded ·)).map (slotValue xs e) =
      ((List.range n).filter (· ∉ e.deleted)).filterMap (xs[·]?) := by
  rw [← hwf.originals]
  have hlt : ∀ i, .original i ∈ e.slots → i < xs.length := by
    intro i hi
    have hmem : i ∈ e.slots.filterMap Slot.original? :=
      List.mem_filterMap.mpr ⟨_, hi, rfl⟩
    rw [hwf.originals] at hmem
    rw [hxs]
    exact List.mem_range.mp (List.mem_filter.mp hmem).1
  generalize e.slots = slots at hlt
  induction slots with
  | nil => rfl
  | cons s slots ih =>
    have hrest := ih fun i hi => hlt i (List.mem_cons_of_mem s hi)
    cases s with
    | original i =>
      have hbound : i < xs.length := hlt i List.mem_cons_self
      have hi : xs[i]? = some xs[i] := List.getElem?_eq_getElem hbound
      simpa [isAdded, Slot.added?, Slot.original?, List.filter_cons, List.filterMap_cons, hi,
        slotValue, SlotList.resolve] using hrest
    | added k =>
      simpa [isAdded, Slot.added?, Slot.original?, List.filter_cons, List.filterMap_cons]
        using hrest

/-! ### The headers the MTA is left with -/

section Translated

variable {b64 : Base64} {session : Session} {stage : Stage} {ops : Operations} {a : Answered}
  {added edits : Edits} {modifications extra : List Modification} {d : Decision}

/-- The originals that the changes and deletes leave. -/
def leftOriginals (n : ℕ) (e : Edits) : List ℕ :=
  (List.range n).filter fun k => ¬ (k ∈ e.headers.deleted ∨ (k, []) ∈ e.headerChanges)

/-- **The headers the MTA is left with**: what changes and deletes leave, completed by the
    insertions. -/
theorem Translated.headers_applied
    (h : Translated b64 session stage ops a added edits modifications extra d)
    (hraw : a.raw = none) (hfew : session.message.headers.length < 2 ^ 32)
    (hnodup : edits.headers.slots.Nodup) (ls : Bool) :
    (edits.headerEdits.map Prod.fst).Nodup ∧
    (∀ x ∈ edits.headerEdits, x.1 < session.message.headers.length) ∧
    d.modifications.foldl (Mta.headers ls) session.message.headers =
      ((edits.headers.slots.zipIdx.filter (isAdded ·.1)).map fun z =>
        insertion edits.headers.slots.length z.2 (slotHeader edits.headers.added z.1)).foldl
        (Mta.headers ls)
        ((leftOriginals session.message.headers.length edits).filterMap
          ((changedHeaders edits.headerChanges session.message.headers)[·]?)) := by
  obtain ⟨changed, inserted, sender, deletes, adds, hr, hfold⟩ :=
    h.foldl_headers ls session.message.headers
  have hpositions := (changes_ok hr.changed).2.1
  refine ⟨hpositions, fun x hx => ((changes_ok hr.changed).2.2 x hx).2, ?_⟩
  have hzip : (edits.headers.slots.zipIdx.map Prod.fst).Nodup := by
    rw [List.zipIdx_map_fst]
    exact hnodup
  have hfilter : (List.range session.message.headers.length).filterMap
      (edited session.message.headers
        (edits.headerEdits.map fun x => (x.1, leftOf session.message.headers x))) =
      (leftOriginals session.message.headers.length edits).filterMap
        ((changedHeaders edits.headerChanges session.message.headers)[·]?) := by
    unfold leftOriginals
    rw [List.filterMap_filter]
    refine List.filterMap_congr fun k _ => ?_
    rw [edited_headerEdits hpositions]
    by_cases hgone : k ∈ edits.headers.deleted ∨ (k, []) ∈ edits.headerChanges
    · rw [if_pos hgone, if_neg (by simp only [hgone, not_true, decide_false]; exact nofun)]
    · rw [if_neg hgone, if_pos (by simp only [hgone, not_false_eq_true, decide_true])]
  rw [hfold, hraw, foldl_changes hfew (headerEdits_sorted edits) hr.changed, hfilter,
    inserts_ok hzip hr.inserted]
  rfl

end Translated

/-- The originals left are those not deleted whose new value is not empty. -/
theorem leftOriginals_eq_filter (n : ℕ) (e : Edits) :
    leftOriginals n e =
      ((List.range n).filter (· ∉ e.headers.deleted)).filter
        fun k => (k, []) ∉ e.headerChanges := by
  unfold leftOriginals
  rw [List.filter_filter]
  refine List.filter_congr fun k _ => ?_
  by_cases hk : k ∈ e.headers.deleted <;> simp [hk]

/-- Changes leave all originals that are not deleted exactly when none writes an empty value. -/
theorem leftOriginals_eq_iff {n : ℕ} {e : Edits} (hnodup : (e.headerEdits.map Prod.fst).Nodup)
    (hlt : ∀ x ∈ e.headerEdits, x.1 < n) :
    leftOriginals n e = (List.range n).filter (· ∉ e.headers.deleted) ↔
      ∀ c ∈ e.headerChanges, c.2 ≠ [] := by
  have hparts := List.nodup_append.mp ((headerEdits_positions e).nodup_iff.mp hnodup)
  rw [leftOriginals_eq_filter, List.filter_eq_self]
  constructor
  · rintro hall ⟨k, value⟩ hc rfl
    have hk : k < n := hlt _ (mem_headerEdits.mpr (.inl ⟨_, hc, rfl⟩))
    have hkeep : k ∉ e.headers.deleted := fun hdeleted =>
      hparts.2.2 k (List.mem_map.mpr ⟨_, hc, rfl⟩) k hdeleted rfl
    have hnone := hall k (List.mem_filter.mpr ⟨List.mem_range.mpr hk, by simpa using hkeep⟩)
    simp [hc] at hnone
  · intro hall k _
    have hnone : (k, []) ∉ e.headerChanges := fun hc => hall _ hc rfl
    simpa using hnone

/-- Positions within a list have an element each. -/
theorem length_filterMap_getElem? {xs : List (Bytes × Bytes)} {l : List ℕ}
    (hl : ∀ k ∈ l, k < xs.length) : (l.filterMap (xs[·]?)).length = l.length := by
  rw [List.filterMap_length_eq_length]
  intro k hk
  rw [List.getElem?_eq_getElem (hl k hk)]
  rfl

/-- **The headers are those the scanner asked for** exactly when no `set` writes an empty
    value, as long as positions and occurrences fit 32 bits. -/
theorem headers_asked_iff {b64 : Base64} {value : Json} {session : Session} {stage : Stage}
    {ops : Operations} {d : Decision} (hops : Operations.fromValue value = some ops)
    (hraw : ops.hasRaw = false) (h : translate b64 value session stage = .ok d)
    (hfew : session.message.headers.length < 2 ^ 32) (hlimit : session.limits.headers ≤ 2 ^ 32) :
    d.modifications.foldl (Mta.headers session.leadingSpace) session.message.headers =
        Scanner.headers ops session.message.headers ↔
      ∀ op ∈ ops.sets, ∀ c ∈ Scanner.headerSet op, c.2 ≠ [] := by
  obtain ⟨ops', a, added, edits, modifications, extra, hops', ht⟩ := translate_ok h
  obtain rfl := Option.some.inj (hops.symm.trans hops')
  set changes := headerSets ops
  set xs := changedHeaders changes session.message.headers
  have hxs : xs.length = session.message.headers.length := length_changedHeaders _ _
  obtain ⟨⟨hwf, hshows⟩, hchanges, hlen⟩ := ht.headers_follow hraw xs hxs
  have hasked : Scanner.headers ops session.message.headers =
      Scanner.editArray "/message/headers"
        (fun v => (Header.fromValue v).map Scanner.field) ops xs := by
    rw [Scanner.headers, foldl_setHeader]
    rfl
  obtain ⟨hpositions, hlt, happlied⟩ := ht.headers_applied (ht.answered_changes hraw).1 hfew
    hwf.nodup session.leadingSpace
  have hinserts := @foldl_inserts session.leadingSpace edits.headers.slots edits.headers.added
    (slotValue xs edits.headers) (by omega) (slotValue_added xs edits.headers)
  rw [map_slotValue hshows, map_slotValue_old hwf rfl, hxs] at hinserts
  have hvalues : leftOriginals session.message.headers.length edits =
        (List.range session.message.headers.length).filter (· ∉ edits.headers.deleted) ↔
      ∀ op ∈ ops.sets, ∀ c ∈ Scanner.headerSet op, c.2 ≠ [] := by
    rw [leftOriginals_eq_iff hpositions hlt, hchanges]
    constructor
    · exact fun hall op hop c hc => hall c (List.mem_filterMap.mpr ⟨op, hop, hc⟩)
    · intro hall c hc
      obtain ⟨op, hop, hc⟩ := List.mem_filterMap.mp hc
      exact hall op hop c hc
  rw [hasked, happlied, hchanges, ← hvalues]
  constructor
  · -- Every insertion adds one header, so the lists before the insertions are of one length.
    intro heq
    have hlengths := congrArg List.length (heq.trans hinserts.symm)
    rw [length_foldl_insertions, length_foldl_insertions, Nat.add_right_cancel_iff,
      length_filterMap_getElem? fun k hk => ?_,
      length_filterMap_getElem? fun k hk => ?_] at hlengths
    · have hsub := List.filter_sublist (p := fun k => (k, []) ∉ edits.headerChanges)
        (l := (List.range session.message.headers.length).filter (· ∉ edits.headers.deleted))
      rw [← leftOriginals_eq_filter] at hsub
      exact hsub.eq_of_length hlengths
    · rw [hxs]
      exact List.mem_range.mp (List.mem_filter.mp hk).1
    · rw [length_changedHeaders]
      exact List.mem_range.mp (List.mem_filter.mp hk).1
  · intro heq
    rw [heq]
    exact hinserts

/-- A message with two headers. -/
def sampleHeaders : Session := Sample.atEnd ["<b>"] [("A", "1"), ("B", "2")]

/-- The scanner sets the value of the first header and adds one after it. -/
def sampleEdit (value : Str) : Json :=
  Sample.response [Sample.setOp "/message/headers/0/value" (.string value)]
    [Sample.addOp "/message/headers" 1 (Sample.headerObject "X" "3")] []

/-- With an empty value the MTA removes the first header and the new one ends up behind the
    second. -/
theorem sampleHeaders_shifts :
    ∃ d, translate Sample.base64 (sampleEdit "") sampleHeaders .endMessage = .ok d ∧
      d.verdict = .continue ∧
      ∃ ops, Operations.fromValue (sampleEdit "") = some ops ∧ ops.hasRaw = false ∧
        d.modifications.foldl (Mta.headers sampleHeaders.leadingSpace)
          sampleHeaders.message.headers =
          [(ascii "B", ascii "2"), (ascii "X", ascii "3")] ∧
        Scanner.headers ops sampleHeaders.message.headers =
          [(ascii "A", []), (ascii "X", ascii "3"), (ascii "B", ascii "2")] := by
  refine ⟨{ modifications := [.changeHeader 1 "A" "", .insertHeader 1 "X" "3"] },
    by decide +kernel, rfl,
    ⟨some [⟨"/message/headers/0/value", .string ""⟩],
      some [⟨"/message/headers", Sample.headerObject "X" "3", some 1⟩], some []⟩, rfl,
    by decide +kernel, by decide +kernel, by decide +kernel⟩

/-- The change of a value gives the MTA the headers that the scanner asked for. -/
theorem headers_asked_iff_at_sample :
    ∃ ops d, translate Sample.base64 (sampleEdit "0") sampleHeaders .endMessage = .ok d ∧
      d.modifications.foldl (Mta.headers sampleHeaders.leadingSpace)
        sampleHeaders.message.headers = Scanner.headers ops sampleHeaders.message.headers := by
  have hops : Operations.fromValue (sampleEdit "0") = some
      ⟨some [⟨"/message/headers/0/value", .string "0"⟩],
        some [⟨"/message/headers", Sample.headerObject "X" "3", some 1⟩], some []⟩ := rfl
  have htranslate : translate Sample.base64 (sampleEdit "0") sampleHeaders .endMessage =
      .ok { modifications := [.changeHeader 1 "A" "0", .insertHeader 1 "X" "3"] } := by
    decide +kernel
  refine ⟨_, _, htranslate, (headers_asked_iff hops (by decide +kernel) htranslate
    (by decide +kernel) (by decide +kernel)).mpr ?_⟩
  intro op hop c hc
  obtain rfl := List.mem_singleton.mp hop
  have hset : Scanner.headerSet ⟨"/message/headers/0/value", .string "0"⟩ =
      some (0, ascii "0") := by decide +kernel
  obtain rfl := Option.some.inj (hset.symm.trans hc)
  decide

end Hooks

end MtaHooks
