import MtaHooks.Lib.FallibleState
import Mathlib.Data.List.Basic

namespace FallibleState

/-!
# Streams that arrive in chunks

`ChunkedStream α` is what a reader sees of a transport: the items still to come, in the
portions in which single reads deliver them.  `read` returns at most what it is asked for
and nothing only at the end of the stream; `readExact` repeats it.

* `sees_readItem` / `sees_readExact` — the portions make no difference to what is read.
-/

/-- Items to come, in non-empty portions. -/
structure ChunkedStream (α : Type) where
  chunks : List (List α)
  delivers : ∀ c ∈ chunks, c ≠ []

variable {α β ε σ : Type}

namespace ChunkedStream

/-- The items to come. -/
def items (s : ChunkedStream α) : List α := s.chunks.flatten

/-- One read into a buffer of `n` items: the items read and the stream behind them. -/
def read (n : ℕ) (s : ChunkedStream α) : List α × ChunkedStream α :=
  match s with
  | ⟨[], h⟩ => ([], ⟨[], h⟩)
  | ⟨c :: chunks, h⟩ =>
    let behind : ∀ c ∈ chunks, c ≠ [] := fun c hc => h c (List.mem_cons_of_mem _ hc)
    if hrest : c.drop n = [] then (c, ⟨chunks, behind⟩)
    else (c.take n, ⟨c.drop n :: chunks, List.forall_mem_cons.mpr ⟨hrest, behind⟩⟩)

/-- A read into a buffer takes items off the front, no more than fit. -/
theorem read_items (n : ℕ) (s : ChunkedStream α) :
    (s.read n).1 ++ (s.read n).2.items = s.items ∧ (s.read n).1.length ≤ n := by
  rcases s with ⟨chunks, h⟩
  cases chunks with
  | nil => exact ⟨rfl, Nat.zero_le n⟩
  | cons c chunks =>
    unfold read
    by_cases hrest : c.drop n = []
    · simp only [hrest, dite_true]
      exact ⟨rfl, List.drop_eq_nil_iff.mp hrest⟩
    · simp only [hrest, dite_false]
      constructor
      · show c.take n ++ (c.drop n :: chunks).flatten = (c :: chunks).flatten
        rw [List.flatten_cons, List.flatten_cons, ← List.append_assoc, List.take_append_drop]
      · rw [List.length_take]
        exact Nat.min_le_left _ _

/-- A read returns nothing only at the end of the stream. -/
theorem read_eq_nil {n : ℕ} (hn : 0 < n) {s : ChunkedStream α} (h : (s.read n).1 = []) :
    s.items = [] := by
  rcases s with ⟨chunks, hchunks⟩
  cases chunks with
  | nil => rfl
  | cons c chunks =>
    have hc : c ≠ [] := hchunks c List.mem_cons_self
    unfold read at h
    by_cases hrest : c.drop n = []
    · simp only [hrest, dite_true] at h
      exact absurd h hc
    · simp only [hrest, dite_false, List.take_eq_nil_iff] at h
      rcases h with h | h
      · omega
      · exact absurd h hc

end ChunkedStream

/-! ### Readers -/

/-- Read one item; `none` at the end of the stream. -/
def readItem : FallibleState (ChunkedStream α) ε (Option α) := fun s =>
  match s.read 1 with
  | ([], t) => (.ok none, t)
  | (x :: _, t) => (.ok (some x), t)

/-- Fill a buffer of `n` items by repeated reads; the end of the stream is an error. -/
def readExact (eof : ε) (n : ℕ) : FallibleState (ChunkedStream α) ε (List α) := fun s =>
  if n = 0 then (.ok [], s)
  else
    match s.read n with
    | ([], t) => (.error eof, t)
    | (x :: xs, t) =>
      match readExact eof (n - (xs.length + 1)) t with
      | (.ok rest, u) => (.ok (x :: xs ++ rest), u)
      | (.error e, u) => (.error e, u)
termination_by n
decreasing_by omega

/-! ### The same readers on the items alone -/

/-- Take one item. -/
def nextItem : FallibleState (List α) ε (Option α) := fun l => (.ok l.head?, l.tail)

/-- Take `n` items; with fewer there, the stream is read to its end. -/
def nextExact (eof : ε) (n : ℕ) : FallibleState (List α) ε (List α) := fun l =>
  if n ≤ l.length then (.ok (l.take n), l.drop n) else (.error eof, [])

/-- To read one item of the stream is to take one of its items. -/
theorem sees_readItem :
    Sees ChunkedStream.items (readItem : FallibleState (ChunkedStream α) ε (Option α))
      nextItem := by
  intro s
  obtain ⟨happend, hlength⟩ := s.read_items 1
  unfold readItem nextItem
  split
  next t hread =>
    rw [hread] at happend
    have hend : s.items = [] := ChunkedStream.read_eq_nil Nat.one_pos (by rw [hread])
    rw [hend] at happend ⊢
    have ht : t.items = [] := happend
    rw [ht]
    rfl
  next x xs t hread =>
    rw [hread] at happend hlength
    have hxs : xs = [] := by
      simp only [List.length_cons] at hlength
      exact List.length_eq_zero_iff.mp (by omega)
    subst hxs
    rw [← happend]
    rfl

/-- What is read exactly from two parts is read from the first, and then from the second. -/
theorem nextExact_append (eof : ε) {n : ℕ} {front back : List α} (h : front.length ≤ n) :
    nextExact eof n (front ++ back) =
      match nextExact eof (n - front.length) back with
      | (.ok rest, l) => (.ok (front ++ rest), l)
      | (.error e, l) => (.error e, l) := by
  unfold nextExact
  rw [List.length_append]
  by_cases hn : n - front.length ≤ back.length
  · rw [if_pos hn, if_pos (by omega), List.take_append, List.drop_append,
      List.take_of_length_le h, List.drop_of_length_le h, List.nil_append]
  · rw [if_neg hn, if_neg (by omega)]

/-- The buffer is filled with the next items, however many reads it takes. -/
theorem sees_readExact (eof : ε) (n : ℕ) :
    Sees ChunkedStream.items (readExact eof n : FallibleState (ChunkedStream α) ε (List α))
      (nextExact eof n) := by
  induction n using Nat.strongRecOn with
  | _ n ih =>
    intro s
    obtain ⟨happend, hlength⟩ := s.read_items n
    unfold readExact
    by_cases hn : n = 0
    · subst hn
      rfl
    rw [if_neg hn]
    split
    next t hread =>
      rw [hread] at happend
      have hend : s.items = [] :=
        ChunkedStream.read_eq_nil (Nat.pos_of_ne_zero hn) (by rw [hread])
      rw [hend] at happend ⊢
      have ht : t.items = [] := happend
      unfold nextExact
      rw [if_neg (by simpa using hn), ht]
    next x xs t hread =>
      rw [hread] at happend hlength
      -- the reads that follow fill what is left of the buffer
      have hrest := ih (n - (xs.length + 1)) (by omega) t
      rw [← happend, nextExact_append eof hlength, List.length_cons, hrest]
      rcases readExact eof (n - (xs.length + 1)) t with ⟨r, u⟩
      cases r with
      | error e => rfl
      | ok rest => rfl

end FallibleState
