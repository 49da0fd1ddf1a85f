import Mathlib.Tactic.Common

/-!
# Loops that end by themselves

`loop turn fuel s` repeats the turn of a `loop { .. }` from the state `s`: a turn ends the loop
with a result, or goes on in a next state.  The fuel is no part of the program.

* `loop_rule` — what every turn keeps while a measure falls, the loop keeps, and it ends with
  any fuel beyond the measure;
* `loop_result` — the same for a loop that has ended, whatever its fuel.
-/

namespace BoundedLoop

variable {σ ρ : Type*}

/-- Repeat the turn, with fuel. -/
def loop (turn : σ → ρ ⊕ σ) : ℕ → σ → Option ρ
  | 0, _ => none
  | fuel + 1, s =>
    match turn s with
    | .inl r => some r
    | .inr s' => loop turn fuel s'

variable {turn : σ → ρ ⊕ σ}

/-- A turn that ends the loop ends it. -/
theorem loop_of_inl {fuel : ℕ} {s : σ} {r : ρ} (h : turn s = .inl r) :
    loop turn (fuel + 1) s = some r := by
  rw [loop, h]

/-- A turn that goes on leaves the rest of the loop. -/
theorem loop_of_inr {fuel : ℕ} {s s' : σ} (h : turn s = .inr s') :
    loop turn (fuel + 1) s = loop turn fuel s' := by
  rw [loop, h]

/-- What a turn does under an invariant and a measure. -/
def TurnKeeps (Inv : σ → Prop) (measure : σ → ℕ) (Post : ρ → Prop) (s : σ) : ρ ⊕ σ → Prop
  | .inl r => Post r
  | .inr s' => Inv s' ∧ measure s' < measure s

/-- **Loop rule.**  A loop whose turns keep the invariant and lower the measure ends, with one
    result for all fuel beyond the measure. -/
theorem loop_rule {Inv : σ → Prop} {measure : σ → ℕ} {Post : ρ → Prop}
    (hturn : ∀ s, Inv s → TurnKeeps Inv measure Post s (turn s)) (s : σ) (hs : Inv s) :
    ∃ r, (∀ fuel, measure s < fuel → loop turn fuel s = some r) ∧ Post r := by
  induction hm : measure s using Nat.strongRecOn generalizing s with
  | ind n ih =>
    have hkeeps := hturn s hs
    cases ht : turn s with
    | inl r =>
      rw [ht] at hkeeps
      refine ⟨r, fun fuel hfuel => ?_, hkeeps⟩
      obtain ⟨k, rfl⟩ : ∃ k, fuel = k + 1 := ⟨fuel - 1, by omega⟩
      exact loop_of_inl ht
    | inr s' =>
      rw [ht] at hkeeps
      obtain ⟨hs', hless⟩ := hkeeps
      obtain ⟨r, hr, hpost⟩ := ih (measure s') (hm ▸ hless) s' hs' rfl
      refine ⟨r, fun fuel hfuel => ?_, hpost⟩
      obtain ⟨k, rfl⟩ : ∃ k, fuel = k + 1 := ⟨fuel - 1, by omega⟩
      rw [loop_of_inr ht]
      exact hr k (by omega)

/-- **Result rule.**  What a loop has ended with is what its turns allow. -/
theorem loop_result {Inv : σ → Prop} {measure : σ → ℕ} {Post : ρ → Prop}
    (hturn : ∀ s, Inv s → TurnKeeps Inv measure Post s (turn s)) {fuel : ℕ} {s : σ} {r : ρ}
    (hs : Inv s) (h : loop turn fuel s = some r) : Post r := by
  induction fuel generalizing s with
  | zero => cases h
  | succ fuel ih =>
    have hkeeps := hturn s hs
    cases ht : turn s with
    | inl r' =>
      rw [ht] at hkeeps
      obtain rfl := Option.some.inj ((loop_of_inl ht).symm.trans h)
      exact hkeeps
    | inr s' =>
      rw [ht] at hkeeps
      exact ih hkeeps.1 ((loop_of_inr ht).symm.trans h)

end BoundedLoop
