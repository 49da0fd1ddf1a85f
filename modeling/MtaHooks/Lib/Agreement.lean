import Mathlib.Tactic.Common

namespace Agreement

/-!
# Two computations with one outcome

`Agrees E P x y` says that `x` and `y` have the same outcome, that its error is of the kind `E`
and its value has the property `P`.  Where `x` is a variant of `y` that checks more, the rules
carry what is known of the values along, so that each check can be seen to pass.

* `Agrees.bind`, `Agrees.ite`, `Agrees.mono` — sequence, branch and weakening;
* `Agrees.foldlM`, `Agrees.mapM` — loops, with an invariant and element by element.
-/

variable {ε α β σ : Type}

/-- One outcome: an error of the kind `E`, or a value with the property `P`. -/
structure Agrees (E : ε → Prop) (P : α → Prop) (x y : Except ε α) : Prop where
  same : x = y
  error : ∀ e, y = .error e → E e
  value : ∀ a, y = .ok a → P a

namespace Agrees

variable {E : ε → Prop} {P : α → Prop} {Q : β → Prop} {x y : Except ε α}

/-- A value agrees with itself if it is as promised. -/
theorem ok {a : α} (ha : P a) : Agrees E P (.ok a) (.ok a) := by
  refine ⟨rfl, fun e h => ?_, fun b h => ?_⟩
  · cases h
  · cases h
    exact ha

/-- The same for `pure`. -/
theorem pure {a : α} (ha : P a) : Agrees E P (pure a) (pure a) := ok ha

/-- An expected error agrees with itself. -/
theorem fail {e : ε} (he : E e) : Agrees E P (.error e) (.error e) := by
  refine ⟨rfl, fun e' h => ?_, fun a h => ?_⟩
  · cases h
    exact he
  · cases h

/-- A computation agrees with itself. -/
theorem refl (h : ∀ e, x = .error e → E e) : Agrees E (fun a => x = .ok a) x x :=
  ⟨rfl, h, fun _ h => h⟩

/-- Agreement on more is agreement on less. -/
theorem mono {P' : α → Prop} (h : Agrees E P x y) (hP : ∀ a, P a → P' a) : Agrees E P' x y :=
  ⟨h.same, h.error, fun a ha => hP a (h.value a ha)⟩

/-- What follows agrees if it agrees on every promised value. -/
theorem bind {f g : α → Except ε β} (h : Agrees E P x y)
    (hf : ∀ a, P a → Agrees E Q (f a) (g a)) : Agrees E Q (x >>= f) (y >>= g) := by
  obtain rfl := h.same
  cases x with
  | error e => exact fail (h.error e rfl)
  | ok a => exact hf a (h.value a rfl)

/-- A decision that both make in the same way. -/
theorem ite {c : Prop} [Decidable c] {x' y' : Except ε α} (hx : c → Agrees E P x y)
    (hx' : ¬ c → Agrees E P x' y') :
    Agrees E P (if c then x else x') (if c then y else y') := by
  by_cases hc : c
  · rw [if_pos hc, if_pos hc]
    exact hx hc
  · rw [if_neg hc, if_neg hc]
    exact hx' hc

/-- A loop with the invariant `P`. -/
theorem foldlM {f g : σ → α → Except ε σ} {I : σ → Prop} {l : List α} {s : σ} (hs : I s)
    (hstep : ∀ s, ∀ a ∈ l, I s → Agrees E I (f s a) (g s a)) :
    Agrees E I (l.foldlM f s) (l.foldlM g s) := by
  induction l generalizing s with
  | nil => exact ok hs
  | cons a l ih =>
    rw [List.foldlM_cons, List.foldlM_cons]
    refine (hstep s a List.mem_cons_self hs).bind fun t ht => ?_
    exact ih ht fun s b hb => hstep s b (List.mem_cons_of_mem a hb)

/-- A loop that collects what its steps return. -/
theorem mapM {f g : α → Except ε β} {l : List α} (hstep : ∀ a ∈ l, Agrees E Q (f a) (g a)) :
    Agrees E (∀ b ∈ ·, Q b) (l.mapM f) (l.mapM g) := by
  induction l with
  | nil =>
    refine ok fun b hb => ?_
    cases hb
  | cons a l ih =>
    rw [List.mapM_cons, List.mapM_cons]
    refine (hstep a List.mem_cons_self).bind fun b hb => ?_
    refine (ih fun a ha => hstep a (List.mem_cons_of_mem _ ha)).bind fun bs hbs => ?_
    exact ok (List.forall_mem_cons.mpr ⟨hb, hbs⟩)

end Agrees

end Agreement
