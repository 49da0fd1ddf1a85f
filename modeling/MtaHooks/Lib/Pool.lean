import MtaHooks.Lib.Runs
import Mathlib.Algebra.BigOperators.Group.Finset.Basic
import Mathlib.Algebra.BigOperators.Group.Finset.Piecewise
import Mathlib.Algebra.BigOperators.Fin

namespace Machine

/-!
# Pools of machines

A pool runs many copies of one partial machine side by side.  Members join at the end, and
every input is addressed dest one member, or to none.

* `exec_invariant_history` — an invariant of the state and the inputs so far;
* `tally` — how often the steps of a run are of one kind, and its change in one step;
* `countP_set` — what replacing a member does to a count of the members;
* `Runs` — every member is the end of a run of its own;
* `total` — the tally of all members, and how it follows the steps of the pool.
-/

open scoped BigOperators

variable {σ τ ι κ : Type*} {next : σ → ι → Option σ}

/-- **Invariant rule for a history.**  What every step preserves of the state and the inputs
    so far, a run preserves. -/
theorem exec_invariant_history {P : σ → List ι → Prop} {is : List ι} {s u : σ}
    (h : exec next s is = some u) (hs : P s [])
    (hnext : ∀ s t i past, next s i = some t → P s past → P t (past ++ [i])) : P u is := by
  induction is using List.reverseRecOn generalizing u with
  | nil =>
    obtain rfl := Option.some.inj h
    exact hs
  | append_singleton past i ih =>
    obtain ⟨t, hpast, hi⟩ := exec_append.mp h
    obtain ⟨v, hv, hu⟩ := exec_cons.mp hi
    obtain rfl := Option.some.inj hu
    exact hnext t v i past hv (ih hpast)

/-- A run goes on by one step. -/
theorem exec_snoc {s t u : σ} {is : List ι} {i : ι} (h : exec next s is = some t)
    (hi : next t i = some u) : exec next s (is ++ [i]) = some u :=
  exec_append.mpr ⟨t, h, exec_cons.mpr ⟨u, hi, rfl⟩⟩

/-! ### Tallies -/

/-- How many steps of a run are of the kind `q`. -/
def tally (next : σ → ι → Option σ) (s : σ) (q : σ → ι → Bool) (is : List ι) : ℕ :=
  (trace next s is).countP fun x => q x.1 x.2

/-- Nothing is tallied before the first step. -/
@[simp] theorem tally_nil (s : σ) (q : σ → ι → Bool) : tally next s q [] = 0 := rfl

/-- A further step is tallied by itself. -/
theorem tally_snoc {s t : σ} {is : List ι} (h : exec next s is = some t) (q : σ → ι → Bool)
    (i : ι) : tally next s q (is ++ [i]) = tally next s q is + (q t i).toNat := by
  unfold tally
  rw [trace_append h, List.countP_append]
  have hlast : trace next t [i] = [(t, i)] := by
    cases hi : next t i with
    | none => simp [trace, hi]
    | some u => rw [trace_cons hi, trace_nil]
  rw [hlast, List.countP_singleton]
  cases q t i <;> rfl

/-! ### Counting members -/

section Count

variable {α : Type*} {p : α → Bool} {xs : List α}

/-- A further element counts by itself. -/
theorem countP_concat (p : α → Bool) (xs : List α) (a : α) :
    (xs ++ [a]).countP p = xs.countP p + (p a).toNat := by
  rw [List.countP_append, List.countP_singleton]
  cases p a <;> rfl

/-- Replacing a member trades its count for that of the new one. -/
theorem countP_set {n : ℕ} {a : α} (h : xs[n]? = some a) (b : α) :
    (xs.set n b).countP p + (p a).toNat = xs.countP p + (p b).toNat := by
  induction xs generalizing n with
  | nil => exact nomatch h
  | cons x xs ih =>
    cases n with
    | zero =>
      obtain rfl := Option.some.inj h
      rw [List.set_cons_zero, List.countP_cons, List.countP_cons]
      cases p x <;> cases p b <;> simp
    | succ n =>
      have hxs := ih (n := n) (by simpa using h)
      rw [List.set_cons_succ, List.countP_cons, List.countP_cons]
      omega

/-- To set an element to itself changes nothing. -/
theorem set_eq_self {n : ℕ} {a : α} (h : xs[n]? = some a) : xs.set n a = xs := by
  obtain ⟨hlt, rfl⟩ := List.getElem?_eq_some_iff.mp h
  exact List.set_getElem_self hlt

/-- An element counts within its list. -/
theorem toNat_le_countP {n : ℕ} {a : α} (h : xs[n]? = some a) : (p a).toNat ≤ xs.countP p := by
  cases ha : p a with
  | false => exact Nat.zero_le _
  | true => exact List.countP_pos_iff.mpr ⟨a, List.mem_of_getElem? h, ha⟩

end Count

/-! ### Pools -/

/-- The inputs of a pool that are addressed dest one member. -/
def addressed (dest : κ → Option (ℕ × ι)) (ks : List κ) (n : ℕ) : List ι :=
  ks.filterMap fun k => (dest k).bind fun x => if x.1 = n then some x.2 else none

/-- An input that is addressed to no member reaches none. -/
theorem addressed_none {dest : κ → Option (ℕ × ι)} {k : κ} (h : dest k = none) (ks : List κ) :
    addressed dest (ks ++ [k]) = addressed dest ks := by
  funext n
  simp [addressed, h]

/-- An input reaches the member that it is addressed to. -/
theorem addressed_self {dest : κ → Option (ℕ × ι)} {k : κ} {n : ℕ} {i : ι}
    (h : dest k = some (n, i)) (ks : List κ) :
    addressed dest (ks ++ [k]) n = addressed dest ks n ++ [i] := by
  simp [addressed, h]

/-- It does not reach the others. -/
theorem addressed_of_ne {dest : κ → Option (ℕ × ι)} {k : κ} {n m : ℕ} {i : ι}
    (h : dest k = some (n, i)) (hm : m ≠ n) (ks : List κ) :
    addressed dest (ks ++ [k]) m = addressed dest ks m := by
  simp [addressed, h, Ne.symm hm]

/-- The members of a pool are the ends of runs of their own, and no input came before its
    member. -/
structure Runs (next : σ → ι → Option σ) (new : σ) (members : List σ) (history : ℕ → List ι) :
    Prop where
  ends : ∀ (n : ℕ) (m : σ), members[n]? = some m → exec next new (history n) = some m
  fresh : ∀ n, members.length ≤ n → history n = []

/-- The tally of all members of a pool of the given size. -/
def total (next : σ → ι → Option σ) (new : σ) (q : σ → ι → Bool) (size : ℕ)
    (history : ℕ → List ι) : ℕ :=
  ∑ n ∈ Finset.range size, tally next new q (history n)

variable {new : σ} {members : List σ} {history history' : ℕ → List ι}

/-- A member that joins has taken no input. -/
theorem Runs.join (h : Runs next new members history) :
    Runs next new (members ++ [new]) history where
  ends n m hm := by
    rcases Nat.lt_or_ge n members.length with hn | hn
    · rw [List.getElem?_append_left hn] at hm
      exact h.ends n m hm
    · obtain ⟨hlt, -⟩ := List.getElem?_eq_some_iff.mp hm
      obtain rfl : n = members.length := by simp at hlt; omega
      rw [List.getElem?_concat_length] at hm
      obtain rfl := Option.some.inj hm
      rw [h.fresh _ hn]
      rfl
  fresh n hn := h.fresh n (by simp at hn; omega)

/-- **Step rule for a pool.**  A step of one member is a step of its own run, and of no
    other. -/
theorem Runs.move (h : Runs next new members history) {n : ℕ} {m m' : σ} {i : ι}
    (hm : members[n]? = some m) (hi : next m i = some m')
    (hself : history' n = history n ++ [i]) (hrest : ∀ k ≠ n, history' k = history k) :
    Runs next new (members.set n m') history' where
  ends k u hu := by
    by_cases hk : k = n
    · subst hk
      obtain ⟨hlt, -⟩ := List.getElem?_eq_some_iff.mp hm
      rw [List.getElem?_set_self hlt] at hu
      obtain rfl := Option.some.inj hu
      rw [hself]
      exact exec_snoc (h.ends k m hm) hi
    · rw [List.getElem?_set_ne (Ne.symm hk)] at hu
      rw [hrest k hk]
      exact h.ends k u hu
  fresh k hk := by
    obtain ⟨hlt, -⟩ := List.getElem?_eq_some_iff.mp hm
    rw [List.length_set] at hk
    rw [hrest k (by omega)]
    exact h.fresh k hk

/-- A new member adds nothing to the total. -/
theorem total_join (h : Runs next new members history) (q : σ → ι → Bool) :
    total next new q (members.length + 1) history = total next new q members.length history := by
  rw [total, Finset.sum_range_succ, h.fresh _ le_rfl, tally_nil, Nat.add_zero, total]

/-- **Counting rule for a pool.**  A step of one member adds to the total what it adds to the
    tally of the member. -/
theorem total_move (h : Runs next new members history) {n : ℕ} {m : σ} {i : ι}
    (hm : members[n]? = some m) (hself : history' n = history n ++ [i])
    (hrest : ∀ k ≠ n, history' k = history k) (q : σ → ι → Bool) :
    total next new q members.length history' =
      total next new q members.length history + (q m i).toNat := by
  obtain ⟨hlt, -⟩ := List.getElem?_eq_some_iff.mp hm
  have hmem : n ∈ Finset.range members.length := Finset.mem_range.mpr hlt
  have hothers : ∑ k ∈ (Finset.range members.length).erase n, tally next new q (history' k) =
      ∑ k ∈ (Finset.range members.length).erase n, tally next new q (history k) :=
    Finset.sum_congr rfl fun k hk => by rw [hrest k (Finset.ne_of_mem_erase hk)]
  unfold total
  rw [← Finset.add_sum_erase _ _ hmem, ← Finset.add_sum_erase _ _ hmem, hothers, hself,
    tally_snoc (h.ends n m hm)]
  omega

end Machine
