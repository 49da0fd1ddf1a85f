import MtaHooks.Hooks.Parts
import MtaHooks.Hooks.RawMatching
import MtaHooks.Lib.GreedyMatch

namespace MtaHooks

open GreedyMatch

/-!
# What a raw replacement leaves untouched

The loop of `rawReplacement` is a greedy matcher of the original headers, in milter-visible
form, with the fields of the replacement.

* `matched_split` / `matched_none` — the next original that a field takes;
* `retained_run` / `inserted_run` — the loop keeps, and inserts, what the matcher does;
* `rawReplacement_retains_iff` — a replacement that only removes fields inserts none, and one
  that only adds fields deletes none exactly if no field is added early.
-/

namespace Hooks

/-! ### One match -/

/-- The originals from the cursor on, in the form that the fields are compared in. -/
abbrev ahead (original : List (Bytes × Bytes)) (cursor : ℕ) : List (Option (Bytes × Bytes)) :=
  (original.map some).drop cursor

/-- What is found first is the head of what is left. -/
theorem head?_dropWhile {α : Type} (p : α → Bool) (l : List α) :
    (l.dropWhile p).head? = l.find? fun a => !p a := by
  induction l with
  | nil => rfl
  | cons a l ih =>
    cases h : p a
    · simp [h]
    · simp [h, ih]

/-- The matcher looks for the first equal original from the cursor on. -/
theorem matched_eq_find? {ls : Bool} {original : List (Bytes × Bytes)} {cursor : ℕ}
    {field h : Bytes × Bytes} (hvisible : visibleField ls field = some h) :
    matched ls original cursor field =
      (List.range original.length).find? fun i => original[i]? = some h ∧ cursor ≤ i := by
  obtain ⟨value, hvalue, rfl⟩ := Option.map_eq_some_iff.mp hvisible
  unfold matched candidates
  rw [hvalue, Option.bind_some]
  rw [head?_dropWhile, List.find?_filter]
  apply congrFun
  apply congrArg
  ext i
  simp

/-- A field that the MTA would not show matches nothing. -/
theorem matched_of_none {ls : Bool} {original : List (Bytes × Bytes)} {cursor : ℕ}
    {field : Bytes × Bytes} (hvisible : visibleField ls field = none) :
    matched ls original cursor field = none := by
  have hvalue : visibleValue ls field.2 = none := Option.map_eq_none_iff.mp hvisible
  rw [matched, hvalue]
  rfl

/-- What is among the next `n` originals stands at one of their positions. -/
theorem getElem?_of_mem_take {original : List (Bytes × Bytes)} {cursor n : ℕ} {v : Bytes × Bytes}
    (h : some v ∈ (ahead original cursor).take n) :
    ∃ i < cursor + n, cursor ≤ i ∧ i < original.length ∧ original[i]? = some v := by
  obtain ⟨j, hj, heq⟩ := List.mem_iff_getElem.mp h
  simp at hj heq
  refine ⟨cursor + j, by omega, by omega, by omega, ?_⟩
  rw [List.getElem?_eq_getElem (by omega), heq]

/-- A match splits the originals from the cursor on. -/
theorem matched_split {ls : Bool} {original : List (Bytes × Bytes)} {cursor index : ℕ}
    {field : Bytes × Bytes} (h : matched ls original cursor field = some index) :
    ∃ skipped, ahead original cursor =
        skipped ++ visibleField ls field :: ahead original (index + 1) ∧
      visibleField ls field ∉ skipped ∧ index = cursor + skipped.length := by
  cases hvisible : visibleField ls field with
  | none => simp [matched_of_none hvisible] at h
  | some v =>
    rw [matched_eq_find? hvisible, List.find?_range_eq_some] at h
    simp only [Bool.decide_and, Bool.and_eq_true, decide_eq_true_eq, List.mem_range] at h
    obtain ⟨⟨hsome, hcursor⟩, hlt, hfirst⟩ := h
    have hindex : (original.map some)[index]? = some (some v) := by simp [hsome]
    refine ⟨(ahead original cursor).take (index - cursor), ?_, ?_, ?_⟩
    · have hdrop : ahead original index = some v :: ahead original (index + 1) := by
        unfold ahead
        rw [List.drop_eq_getElem?_toList_append, hindex]
        rfl
      rw [← hdrop]
      have hsum : index = cursor + (index - cursor) := by omega
      unfold ahead
      conv_rhs => rw [hsum, ← List.drop_drop]
      simp
    · intro hmem
      obtain ⟨i, hbefore, hi, -, hhere⟩ := getElem?_of_mem_take hmem
      have hout := hfirst i (by omega)
      simp [hhere, hi] at hout
    · simp
      omega

/-- A field that matches nothing is not ahead. -/
theorem matched_none {ls : Bool} {original : List (Bytes × Bytes)} {cursor : ℕ}
    {field : Bytes × Bytes} (h : matched ls original cursor field = none) :
    visibleField ls field ∉ ahead original cursor := by
  intro hmem
  cases hvisible : visibleField ls field with
  | none =>
    rw [hvisible] at hmem
    obtain ⟨_, -, hx⟩ := List.mem_map.mp (List.mem_of_mem_drop hmem)
    cases hx
  | some v =>
    rw [hvisible, ← List.take_length (l := ahead original cursor)] at hmem
    obtain ⟨i, -, hi, hlt, hhere⟩ := getElem?_of_mem_take hmem
    rw [matched_eq_find? hvisible, List.find?_eq_none] at h
    have hout := h i (List.mem_range.mpr hlt)
    simp [hhere, hi] at hout

/-! ### The loop -/

/-- A field is matched with an original one, or placed as a new one. -/
theorem matchField_ok {ls : Bool} {original : List (Bytes × Bytes)} {m m' : Matching}
    {x : (Bytes × Bytes) × ℕ} (h : matchField ls original m x = .ok m') :
    (∃ index, matched ls original m.cursor x.1 = some index ∧
      m' = { m with retained := m.retained.set index true, cursor := index + 1 }) ∨
    (matched ls original m.cursor x.1 = none ∧ ∃ insertion,
      m' = { m with inserted := m.inserted ++ [insertion] }) := by
  unfold matchField at h
  cases hmatch : matched ls original m.cursor x.1 with
  | some index =>
    rw [hmatch] at h
    exact .inl ⟨index, rfl, (Except.ok.inj h).symm⟩
  | none =>
    rw [hmatch] at h
    obtain ⟨name, -, h⟩ := Result.bind_ok_iff.mp h
    obtain ⟨value, -, h⟩ := Result.bind_ok_iff.mp h
    exact .inr ⟨rfl, _, (Except.ok.inj h).symm⟩

/-- The loop inserts no field iff the matcher finds all of them. -/
theorem inserted_run {ls : Bool} {original fields : List (Bytes × Bytes)} {m m' : Matching}
    {k : ℕ} (h : (fields.zipIdx k).foldlM (matchField ls original) m = .ok m') :
    m'.inserted = [] ↔ m.inserted = [] ∧
      takesAll (ahead original m.cursor) (fields.map (visibleField ls)) = true := by
  induction fields generalizing m k with
  | nil =>
    rw [Except.ok.inj h]
    simp [takesAll]
  | cons field fields ih =>
    rw [List.zipIdx_cons, List.foldlM_cons] at h
    obtain ⟨m₁, hstep, h⟩ := Result.bind_ok_iff.mp h
    rw [ih h, List.map_cons]
    rcases matchField_ok hstep with ⟨index, hmatch, rfl⟩ | ⟨hmatch, insertion, rfl⟩
    · obtain ⟨skipped, hsplit, hout, -⟩ := matched_split hmatch
      rw [hsplit, takesAll_split hout]
    · rw [takesAll_of_not_mem (matched_none hmatch)]
      simp

/-- Without another field every original is kept iff none is left to match. -/
theorem retained_end {original : List (Bytes × Bytes)} {m : Matching}
    (hlength : m.retained.length = original.length)
    (hlater : ∀ i, m.cursor ≤ i → i < original.length → m.retained[i]? = some false) :
    false ∉ m.retained ↔ (∀ i < m.cursor, m.retained[i]? ≠ some false) ∧
      keepsAll (ahead original m.cursor) [] = true := by
  have hend : keepsAll (ahead original m.cursor) [] = true ↔ original.length ≤ m.cursor := by
    cases hahead : ahead original m.cursor with
    | nil => simpa using hahead
    | cons o rest =>
      have hlt : (ahead original m.cursor).length ≠ 0 := by simp [hahead]
      rw [List.length_drop, List.length_map] at hlt
      simp [keepsAll]
      omega
  rw [hend, List.mem_iff_getElem?, not_exists]
  constructor
  · intro hall
    refine ⟨fun i _ => hall i, ?_⟩
    by_contra hlt
    exact hall m.cursor (hlater m.cursor le_rfl (by omega))
  · rintro ⟨hbefore, hle⟩ i hi
    have hrange := (List.getElem?_eq_some_iff.mp hi).1
    exact hbefore i (by omega) hi

/-- Keeping the original at the cursor leaves the ones before it as they are. -/
theorem retained_set {retained : List Bool} {cursor : ℕ} (hlt : cursor < retained.length) :
    (∀ i < cursor + 1, (retained.set cursor true)[i]? ≠ some false) ↔
      ∀ i < cursor, retained[i]? ≠ some false := by
  have hhead : (retained.set cursor true)[cursor]? ≠ some false := by
    rw [List.getElem?_set_self hlt]
    simp
  rw [Nat.forall_lt_succ_right]
  simp only [hhead, ne_eq, not_false_eq_true, and_true]
  refine forall₂_congr fun i hi => ?_
  rw [List.getElem?_set_ne (by omega)]

/-- The loop keeps every original iff the matcher does. -/
theorem retained_run {ls : Bool} {original fields : List (Bytes × Bytes)} {m m' : Matching}
    {k : ℕ} (hlength : m.retained.length = original.length)
    (hlater : ∀ i, m.cursor ≤ i → i < original.length → m.retained[i]? = some false)
    (h : (fields.zipIdx k).foldlM (matchField ls original) m = .ok m') :
    false ∉ m'.retained ↔ (∀ i < m.cursor, m.retained[i]? ≠ some false) ∧
      keepsAll (ahead original m.cursor) (fields.map (visibleField ls)) = true := by
  induction fields generalizing m k with
  | nil =>
    rw [← Except.ok.inj h]
    exact retained_end hlength hlater
  | cons field fields ih =>
    rw [List.zipIdx_cons, List.foldlM_cons] at h
    obtain ⟨m₁, hstep, h⟩ := Result.bind_ok_iff.mp h
    rw [List.map_cons]
    rcases matchField_ok hstep with ⟨index, hmatch, rfl⟩ | ⟨hmatch, insertion, rfl⟩
    · obtain ⟨skipped, hsplit, hout, hindex⟩ := matched_split hmatch
      have hlt := (matched_eq_some hmatch).2.1
      have hlater' : ∀ i, index + 1 ≤ i → i < original.length →
          (m.retained.set index true)[i]? = some false := by
        intro i hi hrange
        rw [List.getElem?_set_ne (by omega)]
        exact hlater i (by omega) hrange
      rw [ih (m := { m with retained := m.retained.set index true, cursor := index + 1 })
        (by simpa using hlength) hlater' h]
      cases skipped with
      | nil =>
        -- The next original is kept.
        obtain rfl : index = m.cursor := by simpa using hindex
        rw [hsplit, List.nil_append, keepsAll_head, retained_set (by omega)]
      | cons o skipped =>
        -- The original at the cursor is given up for good.
        rw [hsplit, List.cons_append, keepsAll_skip hout]
        rw [List.length_cons] at hindex
        have hgone : (m.retained.set index true)[m.cursor]? = some false := by
          rw [List.getElem?_set_ne (by omega)]
          exact hlater m.cursor le_rfl (by omega)
        constructor
        · rintro ⟨hkept, -⟩
          exact absurd hgone (hkept m.cursor (by show m.cursor < index + 1; omega))
        · rintro ⟨-, hfalse⟩
          cases hfalse
    · rw [keepsAll_of_not_mem (matched_none hmatch)]
      exact ih (m := { m with inserted := m.inserted ++ [insertion] }) hlength hlater h

/-! ### The edits -/

/-- No header is changed or deleted. -/
def ChangesNone (ms : List Modification) : Prop :=
  ∀ occurrence name value, .changeHeader occurrence name value ∉ ms

/-- No raw header is inserted. -/
def InsertsNone (ms : List Modification) : Prop :=
  ∀ index name value, .insertRawHeader index name value ∉ ms

/-- Nothing is dropped if everything is retained. -/
theorem dropped_eq_nil {retained : List Bool} : dropped retained = [] ↔ false ∉ retained := by
  rw [dropped, List.filter_eq_nil_iff, List.mem_iff_getElem?, not_exists]
  constructor
  · intro hall i hi
    have hrange := (List.getElem?_eq_some_iff.mp hi).1
    exact hall i (by simpa using hrange) (decide_eq_true hi)
  · intro hall i _ hi
    exact hall i (of_decide_eq_true hi)

/-- Deletions are the only edits of the two kinds that change a header. -/
theorem changesNone_append {deletes inserted : List Modification}
    (hdeletes : ∀ e ∈ deletes, ∃ occurrence name, e = .changeHeader occurrence name [])
    (hinserted : ∀ e ∈ inserted, ∃ index name value, e = .insertRawHeader index name value) :
    ChangesNone (deletes ++ inserted) ↔ deletes = [] := by
  constructor
  · intro hnone
    apply List.eq_nil_iff_forall_not_mem.mpr
    intro e he
    obtain ⟨occurrence, name, rfl⟩ := hdeletes e he
    exact hnone _ _ _ (List.mem_append_left _ he)
  · rintro rfl occurrence name value hmem
    rw [List.nil_append] at hmem
    obtain ⟨_, _, _, heq⟩ := hinserted _ hmem
    cases heq

/-- Insertions are the only edits of the two kinds that insert a field. -/
theorem insertsNone_append {deletes inserted : List Modification}
    (hdeletes : ∀ e ∈ deletes, ∃ occurrence name, e = .changeHeader occurrence name [])
    (hinserted : ∀ e ∈ inserted, ∃ index name value, e = .insertRawHeader index name value) :
    InsertsNone (deletes ++ inserted) ↔ inserted = [] := by
  constructor
  · intro hnone
    apply List.eq_nil_iff_forall_not_mem.mpr
    intro e he
    obtain ⟨index, name, value, rfl⟩ := hinserted e he
    exact hnone _ _ _ (List.mem_append_right _ he)
  · rintro rfl index name value hmem
    rw [List.append_nil] at hmem
    obtain ⟨_, _, heq⟩ := hdeletes _ hmem
    cases heq

/-- The edits of the header fields are what the matcher gives up and what it does not find. -/
theorem fieldEdits_kinds {ls : Bool} {original fields : List (Bytes × Bytes)}
    {edits : List Modification} (h : fieldEdits ls original fields = .ok edits) :
    (ChangesNone edits ↔ keepsAll (original.map some) (fields.map (visibleField ls)) = true) ∧
      (InsertsNone edits ↔
        takesAll (original.map some) (fields.map (visibleField ls)) = true) := by
  obtain ⟨m, hrun, h⟩ := Result.bind_ok_iff.mp h
  obtain ⟨deletes, hdeletes, h⟩ := Result.bind_ok_iff.mp h
  rw [← Except.ok.inj h]
  have hretained := retained_run (by simp) (fun i _ hi => List.getElem?_replicate_of_lt hi) hrun
  have hinserted := inserted_run hrun
  simp only [Nat.not_lt_zero, false_implies, implies_true, true_and] at hretained hinserted
  obtain ⟨placed, kept, -, hm⟩ := (Matches.start ls original).run hrun
  have hinsertion : ∀ e ∈ m.inserted, ∃ index name value,
      e = .insertRawHeader index name value := by
    intro e he
    rw [hm.inserted] at he
    obtain ⟨x, -, rfl⟩ := List.mem_map.mp he
    exact ⟨_, _, _, rfl⟩
  have hdeletion : ∀ e ∈ deletes, ∃ occurrence name, e = .changeHeader occurrence name [] := by
    intro e he
    obtain ⟨i, -, hi⟩ := Result.mapM_ok_of_mem hdeletes he
    obtain ⟨header, -, hi⟩ := Result.bind_ok_iff.mp hi
    obtain ⟨name, -, hi⟩ := Result.bind_ok_iff.mp hi
    exact ⟨_, _, (Except.ok.inj hi).symm⟩
  have hempty : deletes = [] ↔ dropped m.retained = [] := by
    rw [Result.mapM_eq_map hdeletes fun i _ b hb => rawDelete_ok hb, List.map_eq_nil_iff]
  constructor
  · rw [changesNone_append hdeletion hinsertion, hempty, dropped_eq_nil]
    exact hretained
  · rw [insertsNone_append hdeletion hinsertion]
    exact hinserted

/-- **What a raw replacement leaves untouched.**  A replacement whose fields are a sublist of
    the original ones inserts none.  One that has all original fields in order deletes none,
    unless it adds a field before an equal original one still to come. -/
theorem rawReplacement_retains_iff {b64 : Base64} {value : Json} {session : Session}
    {raw : Bytes} {places : List RawField} {bodyStart : ℕ} {ms : List Modification}
    (hraw : decodeRaw b64 session.limits value = .ok raw)
    (hread : readFields session.limits raw (raw.length + 1) 0 [] = .ok (places, bodyStart))
    (h : rawReplacement b64 value session = .ok ms) :
    let original := session.message.headers.map some
    let shown := places.map fun f => visibleField session.leadingSpace (f.field raw)
    ((List.Sublist original shown → ChangesNone ms) ∧
        (List.Sublist shown original → InsertsNone ms) ↔
      (List.Sublist original shown → addsEarly original shown = false)) ∧
    (List.Sublist shown original → InsertsNone ms) := by
  intro original shown
  obtain ⟨raw', places', bodyStart', edits, hraw', hread', hedits, hms⟩ := rawReplacement_ok h
  obtain rfl : raw = raw' := Except.ok.inj (hraw.symm.trans hraw')
  obtain ⟨rfl, rfl⟩ := Prod.mk.inj (Except.ok.inj (hread.symm.trans hread'))
  obtain ⟨hchanges, hinserts⟩ := fieldEdits_kinds hedits
  rw [List.map_map] at hchanges hinserts
  -- The body is replaced by an edit of its own kind.
  have hbody : (ChangesNone ms ↔ ChangesNone edits) ∧ (InsertsNone ms ↔ InsertsNone edits) := by
    rw [hms]
    unfold ChangesNone InsertsNone
    split <;> simp
  have hchanges' : ChangesNone ms ↔ keepsAll original shown = true := hbody.1.trans hchanges
  have hinserts' : InsertsNone ms ↔ takesAll original shown = true := hbody.2.trans hinserts
  have hremoved : List.Sublist shown original → InsertsNone ms := by
    intro hsub
    rw [hinserts', takesAll_iff]
    exact hsub
  refine ⟨?_, hremoved⟩
  rw [hchanges', keepsAll_iff]
  constructor
  · exact fun hboth hsub => (hboth.1 hsub).2
  · exact fun hlate => ⟨fun hsub => ⟨hsub, hlate hsub⟩, hremoved⟩

/-- The end of a message with two headers. -/
def twoHeaders : Session := Sample.atEnd ["<b>"] [("A", "1"), ("B", "2")]

/-- The two headers with a second `B` put in front of them. -/
def addedInFront : Bytes := ascii "B: 2\r\nA: 1\r\nB: 2\r\n\r\n"

/-- The first `B` takes the original one, and `A` is deleted and inserted again. -/
theorem addedInFront_deletes :
    twoHeaders.message.headers = [(ascii "A", ascii "1"), (ascii "B", ascii "2")] ∧
    readFields twoHeaders.limits addedInFront (addedInFront.length + 1) 0 [] =
      .ok ([⟨"B", 2, 4⟩, ⟨"A", 8, 10⟩, ⟨"B", 14, 16⟩], 20) ∧
    ([⟨"B", 2, 4⟩, ⟨"A", 8, 10⟩, ⟨"B", 14, 16⟩] : List RawField).map
        (fun f => visibleField twoHeaders.leadingSpace (f.field addedInFront)) =
      [some (ascii "B", ascii "2"), some (ascii "A", ascii "1"), some (ascii "B", ascii "2")] ∧
    rawReplacement Sample.base64 (.string (Sample.base64.encode addedInFront)) twoHeaders =
      .ok [.changeHeader 1 "A" [], .insertRawHeader 1 "A" " 1", .insertRawHeader 2 "B" " 2"] := by
  decide +kernel

/-- A field that is added behind an original one, and a field that is taken away. -/
theorem rawReplacement_retains_iff_at_twoHeaders :
    ChangesNone [.insertRawHeader 1 "C" " 3"] ∧ InsertsNone [.changeHeader 1 "A" []] := by
  -- A field is added behind `A`, where no equal header is still to come.
  have hadded := @rawReplacement_retains_iff Sample.base64
    (.string (Sample.base64.encode (ascii "A: 1\r\nC: 3\r\nB: 2\r\n\r\n"))) twoHeaders
    (ascii "A: 1\r\nC: 3\r\nB: 2\r\n\r\n") [⟨"A", 2, 4⟩, ⟨"C", 8, 10⟩, ⟨"B", 14, 16⟩] 20
    [.insertRawHeader 1 "C" " 3"] (by decide +kernel) (by decide +kernel) (by decide +kernel)
  have hremoved := @rawReplacement_retains_iff Sample.base64
    (.string (Sample.base64.encode (ascii "B: 2\r\n\r\n"))) twoHeaders (ascii "B: 2\r\n\r\n")
    [⟨"B", 2, 4⟩] 8 [.changeHeader 1 "A" []] (by decide +kernel) (by decide +kernel)
    (by decide +kernel)
  refine ⟨?_, hremoved.2 (by decide +kernel)⟩
  exact (hadded.1.mpr fun _ => by decide +kernel).1 (by decide +kernel)

end Hooks

end MtaHooks
