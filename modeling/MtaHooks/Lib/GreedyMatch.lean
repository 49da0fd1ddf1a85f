import Mathlib.Data.List.Basic
import Mathlib.Tactic.Common

/-!
# Greedy matching of two lists

A matcher goes through a list of new elements once.  Each new element takes the first equal
element that is left of the old list, and gives up the old elements before it; a new element
that none is left for stays unmatched.

* `takesAll_iff` — every new element finds a match iff the new list is a sublist of the old;
* `keepsAll_iff` — every old element is kept iff the old list is a sublist of the new and no
  element is added before an equal one that is still to come (`addsEarly`).
-/

namespace GreedyMatch

variable {α : Type} [DecidableEq α]

/-- What is left of the old list behind the first match of an element. -/
def left (x : α) (old : List α) : List α := (old.dropWhile (· ≠ x)).tail

/-- Every new element finds a match. -/
def takesAll : List α → List α → Bool
  | _, [] => true
  | old, x :: new => decide (x ∈ old) && takesAll (left x old) new

/-- No old element is given up, and none remains at the end. -/
def keepsAll : List α → List α → Bool
  | [], _ => true
  | _ :: _, [] => false
  | o :: old, x :: new =>
    if x = o then keepsAll old new else decide (x ∉ old) && keepsAll (o :: old) new

/-- With the old list placed in the new one as early as possible, an element is added while an
    equal old one is still to come. -/
def addsEarly : List α → List α → Bool
  | [], _ => false
  | _ :: _, [] => false
  | o :: old, x :: new =>
    if x = o then addsEarly old new else decide (x ∈ old) || addsEarly (o :: old) new

/-! ### Behind the first match -/

/-- What is left behind the first occurrence of a value. -/
theorem left_split {x : α} {skipped old : List α} (hx : x ∉ skipped) :
    left x (skipped ++ x :: old) = old := by
  unfold left
  rw [List.dropWhile_append_of_pos fun y hy => ?_]
  · simp
  · simp only [ne_eq, decide_eq_true_eq]
    rintro rfl
    exact hx hy

/-- The first match of an element splits the list. -/
theorem exists_split {x : α} {old : List α} (hx : x ∈ old) :
    ∃ skipped, x ∉ skipped ∧ old = skipped ++ x :: left x old := by
  obtain ⟨skipped, rest, hsplit, hout⟩ := List.eq_append_cons_of_mem hx
  refine ⟨skipped, hout, ?_⟩
  rw [hsplit, left_split hout]

/-! ### Steps of the matcher -/

/-- An old value that is met is taken, and those in front of it are skipped. -/
theorem takesAll_split {x : α} {skipped old new : List α} (hx : x ∉ skipped) :
    takesAll (skipped ++ x :: old) (x :: new) = takesAll old new := by
  rw [takesAll, left_split hx]
  simp

/-- A new value that is nowhere ahead is not taken. -/
theorem takesAll_of_not_mem {x : α} {old new : List α} (hx : x ∉ old) :
    takesAll old (x :: new) = false := by
  simp [takesAll, hx]

/-- There is nothing to keep. -/
@[simp] theorem keepsAll_nil (new : List α) : keepsAll [] new = true := by
  unfold keepsAll
  rfl

/-- The same value in front of both is kept. -/
theorem keepsAll_head (x : α) (old new : List α) :
    keepsAll (x :: old) (x :: new) = keepsAll old new := by
  simp [keepsAll]

/-- A match behind the head gives the head up. -/
theorem keepsAll_skip {o x : α} {skipped old new : List α} (hx : x ∉ o :: skipped) :
    keepsAll (o :: (skipped ++ x :: old)) (x :: new) = false := by
  have hne : x ≠ o := fun h => hx (h ▸ List.mem_cons_self)
  simp [keepsAll, hne]

/-- A new value that is nowhere ahead keeps what is there. -/
theorem keepsAll_of_not_mem {x : α} {old new : List α} (hx : x ∉ old) :
    keepsAll old (x :: new) = keepsAll old new := by
  cases old with
  | nil => simp
  | cons o old =>
    have hne : x ≠ o := fun h => hx (h ▸ List.mem_cons_self)
    have hout : x ∉ old := fun h => hx (List.mem_cons_of_mem o h)
    rw [keepsAll, if_neg hne]
    simp [hout]

/-! ### What greedy matching finds -/

/-- **A greedy matcher finds every sublist.** -/
theorem takesAll_iff {old new : List α} : takesAll old new = true ↔ List.Sublist new old := by
  induction new generalizing old with
  | nil => simp [takesAll]
  | cons x new ih =>
    by_cases hx : x ∈ old
    · obtain ⟨skipped, hout, hsplit⟩ := exists_split hx
      rw [hsplit, takesAll_split hout, ih]
      constructor
      · intro h
        exact (h.cons_cons x).trans (List.sublist_append_right _ _)
      · intro h
        -- The head can only be placed behind what does not contain it.
        obtain ⟨first, second, heq, hfirst, hsecond⟩ := List.sublist_append_iff.mp h
        cases first with
        | nil =>
          rw [List.nil_append] at heq
          rw [← heq] at hsecond
          exact List.cons_sublist_cons.mp hsecond
        | cons y first =>
          rw [List.cons_append] at heq
          obtain ⟨hhead, -⟩ := List.cons.inj heq
          exact absurd (hfirst.subset (hhead ▸ List.mem_cons_self)) hout
    · rw [takesAll_of_not_mem hx]
      constructor
      · intro h
        cases h
      · intro h
        exact absurd (h.subset List.mem_cons_self) hx

/-- **What a greedy matcher keeps.**  It keeps the whole old list iff that is a sublist of the
    new one and nothing is added early. -/
theorem keepsAll_iff {old new : List α} :
    keepsAll old new = true ↔ List.Sublist old new ∧ addsEarly old new = false := by
  induction new generalizing old with
  | nil => cases old <;> simp [keepsAll, addsEarly]
  | cons x new ih =>
    cases old with
    | nil => simp [addsEarly]
    | cons o old =>
      by_cases hx : x = o
      · subst hx
        rw [keepsAll_head, ih, List.cons_sublist_cons]
        simp [addsEarly]
      · -- The head of the old list is placed later, so the new element is added before it.
        have hskip : List.Sublist (o :: old) (x :: new) ↔ List.Sublist (o :: old) new := by
          constructor
          · intro h
            rcases List.sublist_cons_iff.mp h with h | ⟨r, hr, -⟩
            · exact h
            · exact absurd (List.cons.inj hr).1.symm hx
          · exact fun h => h.cons x
        rw [keepsAll, if_neg hx, Bool.and_eq_true, ih, hskip, addsEarly, if_neg hx]
        simp only [decide_not, Bool.not_eq_eq_eq_not, Bool.not_true, decide_eq_false_iff_not,
          Bool.or_eq_false_iff]
        exact and_left_comm

end GreedyMatch
