import MtaHooks.Lib.Runs
import Mathlib.Tactic.Common

namespace RenewedCell

/-!
# A value that is replaced on demand

A cell holds the last of the values made for it, or is empty.  Whoever finds a value to be bad
asks to clear it; the cell is cleared if it still holds that value, and an empty cell is
filled with a new one.  Values are known by their number, so a request that comes late
clears nothing.

* `Accounts` — what a run has replaced and what it was asked to clear, kept by every step;
* `replaced_eq` — each value that was asked to be cleared, however often, is replaced exactly
  once, and no other value is.
-/

/-- How many values were made, and whether the last of them is held. -/
structure Cell where
  made : ℕ
  full : Bool
  deriving DecidableEq

/-- What is done to a cell. -/
inductive Op
  | renew
  | clear (v : ℕ)
  deriving DecidableEq

/-- The cell holds the value of the number. -/
def Cell.Holds (c : Cell) (v : ℕ) : Prop := c.full = true ∧ v + 1 = c.made

instance (c : Cell) (v : ℕ) : Decidable (c.Holds v) := inferInstanceAs (Decidable (_ ∧ _))

/-- An empty cell is filled; a value that was made is cleared, if it is held. -/
def next (c : Cell) : Op → Option Cell
  | .renew => if c.full then none else some ⟨c.made + 1, true⟩
  | .clear v =>
    if v < c.made then some (if c.Holds v then { c with full := false } else c) else none

/-- A cell that holds its first value. -/
def start : Cell := ⟨1, true⟩

/-- The steps that make a value in place of the value `v`. -/
def replaced (v : ℕ) (steps : List (Cell × Op)) : ℕ :=
  steps.countP fun x => x.2 = .renew ∧ x.1.made = v + 1

/-- The value that a step asks to clear. -/
def asks : Cell × Op → Option ℕ
  | (_, .clear v) => some v
  | (_, .renew) => none

/-- The values that the steps ask to clear. -/
def asked (steps : List (Cell × Op)) : List ℕ := steps.filterMap asks

/-- A further step replaces a value if it renews the cell after it. -/
theorem replaced_concat (v : ℕ) (steps : List (Cell × Op)) (c : Cell) (o : Op) :
    replaced v (steps ++ [(c, o)]) =
      replaced v steps + if o = .renew ∧ c.made = v + 1 then 1 else 0 := by
  simp [replaced, List.countP_append, List.countP_cons]

/-- A further step asks for a value if it clears it. -/
theorem mem_asked_concat (v : ℕ) (steps : List (Cell × Op)) (c : Cell) (o : Op) :
    v ∈ asked (steps ++ [(c, o)]) ↔ v ∈ asked steps ∨ o = .clear v := by
  cases o <;> simp [asked, asks, eq_comm]

/-- The values before the last are replaced, and all of them were asked to be cleared; the
    last one was, exactly when the cell is empty. -/
structure Accounts (c : Cell) (steps : List (Cell × Op)) : Prop where
  replaced : ∀ v, replaced v steps = if v + 1 < c.made then 1 else 0
  asked : ∀ v, v ∈ asked steps ↔ v + 1 < c.made ∨ c.full = false ∧ v + 1 = c.made

/-- The empty history accounts for the first cell. -/
theorem Accounts.start : Accounts start [] where
  replaced := by simp [RenewedCell.replaced, RenewedCell.start]
  asked := by simp [RenewedCell.asked, RenewedCell.start]

/-- A renewal is accounted for. -/
theorem Accounts.renew {c c' : Cell} {steps : List (Cell × Op)} (h : Accounts c steps)
    (hnext : next c .renew = some c') : Accounts c' (steps ++ [(c, .renew)]) := by
  have hempty : c.full = false := by
    by_contra hfull
    rw [next, if_pos (Bool.not_eq_false _ ▸ hfull)] at hnext
    cases hnext
  rw [next, if_neg (by simp [hempty])] at hnext
  obtain rfl := Option.some.inj hnext
  constructor
  · intro v
    rw [replaced_concat, h.replaced]
    show _ = if v + 1 < c.made + 1 then 1 else 0
    by_cases hlast : c.made = v + 1
    · rw [if_neg (by omega), if_pos ⟨rfl, hlast⟩, if_pos (by omega)]
    · rw [if_neg (fun hv : _ ∧ _ => hlast hv.2), Nat.add_zero]
      exact if_congr (by omega) rfl rfl
  · intro v
    rw [mem_asked_concat, h.asked]
    show _ ↔ v + 1 < c.made + 1 ∨ true = false ∧ _
    simp only [hempty, true_and, reduceCtorEq, or_false, false_and]
    omega

/-- A request for a value that is no longer held was made before. -/
theorem Accounts.clear {c c' : Cell} {steps : List (Cell × Op)} {v : ℕ} (h : Accounts c steps)
    (hnext : next c (.clear v) = some c') : Accounts c' (steps ++ [(c, .clear v)]) := by
  have hlt : v < c.made := by
    by_contra hge
    rw [next, if_neg hge] at hnext
    cases hnext
  rw [next, if_pos hlt] at hnext
  obtain rfl := Option.some.inj hnext
  have hmade : (if c.Holds v then { c with full := false } else c).made = c.made := by
    split <;> rfl
  constructor
  · intro w
    rw [replaced_concat, h.replaced, hmade]
    simp
  · intro w
    rw [mem_asked_concat, h.asked, hmade]
    by_cases hholds : c.Holds v
    · obtain ⟨hfull, hlast⟩ := hholds
      rw [if_pos ⟨hfull, hlast⟩]
      show _ ↔ w + 1 < c.made ∨ false = false ∧ w + 1 = c.made
      simp only [hfull, Op.clear.injEq, Bool.true_eq_false, false_and, or_false, true_and]
      omega
    · rw [if_neg hholds]
      have hbefore : v + 1 < c.made ∨ c.full = false ∧ v + 1 = c.made := by
        by_cases hlast : v + 1 = c.made
        · exact .inr ⟨by simpa using fun hfull => hholds ⟨hfull, hlast⟩, hlast⟩
        · exact .inl (by omega)
      constructor
      · rintro (hw | hw)
        · exact hw
        · obtain rfl := Op.clear.inj hw
          exact hbefore
      · exact .inl

/-- **Every value that was asked to be cleared is replaced exactly once**, and no other value
    is; only the replacement of the last one may be still to come. -/
theorem replaced_eq {ops : List Op} {c : Cell} (h : Machine.exec next start ops = some c)
    (v : ℕ) :
    replaced v (Machine.trace next start ops) +
        (if c.full = false ∧ v + 1 = c.made then 1 else 0) =
      if v ∈ asked (Machine.trace next start ops) then 1 else 0 := by
  have haccounts : Accounts c ([] ++ Machine.trace next start ops) := by
    refine Machine.exec_invariant_trace (P := Accounts) (Q := fun _ _ => True) h .start
      (fun _ _ => trivial) fun c c' o past hnext _ hpast => ?_
    cases o with
    | renew => exact hpast.renew hnext
    | clear v => exact hpast.clear hnext
  rw [List.nil_append] at haccounts
  rw [haccounts.replaced]
  have hiff := haccounts.asked v
  by_cases hbefore : v + 1 < c.made
  · rw [if_pos hbefore, if_neg (by omega), if_pos (hiff.mpr (.inl hbefore))]
  · rw [if_neg hbefore, Nat.zero_add]
    refine if_congr ?_ rfl rfl
    rw [hiff]
    exact (or_iff_right hbefore).symm

end RenewedCell
