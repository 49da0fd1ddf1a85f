import Mathlib.Tactic.Common

/-- A computation that reads and mutates a state and may fail. -/
def FallibleState (σ ε α : Type) : Type := σ → Except ε α × σ

namespace FallibleState

/-!
# Fallible computations over a mutable state

`FallibleState σ ε α` is a method `&mut self -> Result<α, ε>`: it reads and mutates a state
of type `σ` and ends with a value or an error.  A failure *keeps* the mutations made before
it, so what an error leaves behind can be stated and proved.

* `bind_ok_iff` / `bind_error_iff` — inversion of a sequence of computations;
* `Keeps R` / `FailsWithin R` — what every run, or every failing run, does to the state;
  with equality for `R`, the computation never mutates, or fails without a trace;
* `Raises P` — every failing run ends with an error of the kind `P`;
* `Commutes g` — the computation neither sees nor undoes the change `g` of the state;
* `Sees v x y` — on every state, `x` does what `y` does on the view `v` of the state;
* `Drains` — the values of repeated runs, up to the end of the input or an error.
-/

variable {σ ε α β : Type}

/-- Go on with `f` after a success; stop at an error, keeping the state reached. -/
protected def bind (x : FallibleState σ ε α) (f : α → FallibleState σ ε β) :
    FallibleState σ ε β := fun s =>
  match x s with
  | (.ok a, s') => f a s'
  | (.error e, s') => (.error e, s')

instance : Monad (FallibleState σ ε) where
  pure a := fun s => (.ok a, s)
  bind := FallibleState.bind

instance : MonadStateOf σ (FallibleState σ ε) where
  get := fun s => (.ok s, s)
  set s := fun _ => (.ok (), s)
  modifyGet f := fun s => (.ok (f s).1, (f s).2)

/-- Fail with an error. -/
def fail (e : ε) : FallibleState σ ε α := fun s => (.error e, s)

/-- The `?` operator on a result computed from no state. -/
def lift (r : Except ε α) : FallibleState σ ε α := fun s => (r, s)

/-- An early return with an error when the condition holds. -/
def failIf (c : Prop) [Decidable c] (e : ε) : FallibleState σ ε Unit :=
  if c then fail e else pure ()

/-! ### Running the primitives -/

@[simp] theorem run_pure (a : α) (s : σ) : (pure a : FallibleState σ ε α) s = (.ok a, s) := rfl

@[simp] theorem run_get (s : σ) : (get : FallibleState σ ε σ) s = (.ok s, s) := rfl

@[simp] theorem run_modify (f : σ → σ) (s : σ) :
    (modify f : FallibleState σ ε Unit) s = (.ok (), f s) := rfl

@[simp] theorem run_fail (e : ε) (s : σ) : (fail e : FallibleState σ ε α) s = (.error e, s) := rfl

@[simp] theorem run_lift (r : Except ε α) (s : σ) :
    (lift r : FallibleState σ ε α) s = (r, s) := rfl

@[simp] theorem run_failIf (c : Prop) [Decidable c] (e : ε) (s : σ) :
    (failIf c e : FallibleState σ ε Unit) s = if c then (.error e, s) else (.ok (), s) := by
  unfold failIf
  split <;> rfl

/-- The run of two computations in a row. -/
theorem run_bind (x : FallibleState σ ε α) (f : α → FallibleState σ ε β) (s : σ) :
    (x >>= f) s =
      match x s with
      | (.ok a, s') => f a s'
      | (.error e, s') => (.error e, s') := rfl

/-- The second computation runs where the first ended. -/
theorem run_bind_of_ok {x : FallibleState σ ε α} {f : α → FallibleState σ ε β} {s s' : σ} {a : α}
    (h : x s = (.ok a, s')) : (x >>= f) s = f a s' := by
  rw [run_bind, h]

/-- A failure ends the whole, in the state it left. -/
theorem run_bind_of_error {x : FallibleState σ ε α} {f : α → FallibleState σ ε β} {s s' : σ}
    {e : ε} (h : x s = (.error e, s')) : (x >>= f) s = (.error e, s') := by
  rw [run_bind, h]

/-- A check that fails ends the whole in the state it was made in. -/
theorem run_failIf_bind_of_pos {c : Prop} [Decidable c] {e : ε} {f : Unit → FallibleState σ ε β}
    {s : σ} (h : c) : (failIf c e >>= f) s = (.error e, s) := by
  rw [failIf, if_pos h]
  rfl

/-- Past a check that passes the rest runs. -/
theorem run_failIf_bind_of_neg {c : Prop} [Decidable c] {e : ε} {f : Unit → FallibleState σ ε β}
    {s : σ} (h : ¬ c) : (failIf c e >>= f) s = f () s := by
  rw [failIf, if_neg h]
  rfl

/-! ### Inversion -/

/-- A sequence succeeds iff both parts do. -/
theorem bind_ok_iff {x : FallibleState σ ε α} {f : α → FallibleState σ ε β} {s t : σ} {b : β} :
    (x >>= f) s = (.ok b, t) ↔ ∃ a s', x s = (.ok a, s') ∧ f a s' = (.ok b, t) := by
  rw [run_bind]
  rcases h : x s with ⟨r, s'⟩
  cases r with
  | error e => simp
  | ok a => simp

/-- A sequence fails iff its first part does, or the second after the first succeeded. -/
theorem bind_error_iff {x : FallibleState σ ε α} {f : α → FallibleState σ ε β} {s t : σ}
    {e : ε} :
    (x >>= f) s = (.error e, t) ↔
      x s = (.error e, t) ∨ ∃ a s', x s = (.ok a, s') ∧ f a s' = (.error e, t) := by
  rw [run_bind]
  rcases h : x s with ⟨r, s'⟩
  cases r with
  | error e => simp
  | ok a => simp

/-- A check passes if its condition fails, and changes nothing. -/
theorem failIf_ok_iff {c : Prop} [Decidable c] {e : ε} {s t : σ} {u : Unit} :
    (failIf c e : FallibleState σ ε Unit) s = (.ok u, t) ↔ ¬ c ∧ s = t := by
  rw [run_failIf]
  by_cases hc : c <;> simp [hc]

/-- A value changes nothing. -/
theorem pure_ok_iff {s t : σ} {a b : α} :
    (pure a : FallibleState σ ε α) s = (.ok b, t) ↔ a = b ∧ s = t := by
  simp

/-- The state is read as it is. -/
theorem get_ok_iff {s t u : σ} :
    (get : FallibleState σ ε σ) s = (.ok u, t) ↔ s = u ∧ s = t := by
  simp

/-- An update leaves the updated state. -/
theorem modify_ok_iff {f : σ → σ} {s t : σ} {u : Unit} :
    (modify f : FallibleState σ ε Unit) s = (.ok u, t) ↔ f s = t := by
  simp

section Sequences

variable {f : σ → FallibleState σ ε β} {k : Unit → FallibleState σ ε β} {g : σ → σ} {s t : σ}

/-- A sequence that begins by reading the state goes on with it. -/
theorem get_bind_ok_iff {b : β} : (get >>= f) s = (.ok b, t) ↔ f s s = (.ok b, t) := Iff.rfl

/-- A failure behind a read of the state. -/
theorem get_bind_error_iff {e : ε} : (get >>= f) s = (.error e, t) ↔ f s s = (.error e, t) :=
  Iff.rfl

/-- A success behind an update. -/
theorem modify_bind_ok_iff {b : β} :
    (modify g >>= k) s = (.ok b, t) ↔ k () (g s) = (.ok b, t) := Iff.rfl

/-- A failure behind an update. -/
theorem modify_bind_error_iff {e : ε} :
    (modify g >>= k) s = (.error e, t) ↔ k () (g s) = (.error e, t) := Iff.rfl

/-- A mutation and a result. -/
theorem modify_pure_ok_iff {a b : α} :
    (modify g >>= fun _ => pure a : FallibleState σ ε α) s = (.ok b, t) ↔ a = b ∧ g s = t :=
  pure_ok_iff

/-- A success behind a check. -/
theorem failIf_bind_ok_iff {c : Prop} [Decidable c] {e : ε} {b : β} :
    (failIf c e >>= k) s = (.ok b, t) ↔ ¬ c ∧ k () s = (.ok b, t) := by
  by_cases hc : c
  · simp [run_failIf_bind_of_pos hc, hc]
  · simp [run_failIf_bind_of_neg hc, hc]

/-- A failure at a check or behind it. -/
theorem failIf_bind_error_iff {c : Prop} [Decidable c] {e e' : ε} :
    (failIf c e >>= k) s = (.error e', t) ↔
      (c ∧ e = e' ∧ s = t) ∨ (¬ c ∧ k () s = (.error e', t)) := by
  by_cases hc : c
  · simp [run_failIf_bind_of_pos hc, hc]
  · simp [run_failIf_bind_of_neg hc, hc]

/-- A success behind a pure result. -/
theorem lift_bind_ok_iff {r : Except ε α} {h : α → FallibleState σ ε β} {b : β} :
    (lift r >>= h) s = (.ok b, t) ↔ ∃ a, r = .ok a ∧ h a s = (.ok b, t) := by
  rw [run_bind]
  cases r with
  | error e => simp
  | ok a => simp

/-- A failure at a pure result or behind it. -/
theorem lift_bind_error_iff {r : Except ε α} {h : α → FallibleState σ ε β} {e : ε} :
    (lift r >>= h) s = (.error e, t) ↔
      (r = .error e ∧ s = t) ∨ ∃ a, r = .ok a ∧ h a s = (.error e, t) := by
  rw [run_bind]
  cases r with
  | error e => simp
  | ok a => simp

end Sequences

/-! ### What a computation does to the state

`R s t` relates the state before to the state after; `R` is a preorder, equality included. -/

/-- Every run relates the states before and after. -/
def Keeps (R : σ → σ → Prop) (x : FallibleState σ ε α) : Prop := ∀ s, R s (x s).2

/-- What a failure leaves behind is related to the state before. -/
def FailsWithin (R : σ → σ → Prop) (x : FallibleState σ ε α) : Prop :=
  ∀ s e t, x s = (.error e, t) → R s t

variable {R : σ → σ → Prop}

/-- What holds of every run holds of those that fail. -/
theorem Keeps.failsWithin {x : FallibleState σ ε α} (hx : Keeps R x) : FailsWithin R x := by
  intro s e t h
  have hs := hx s
  rw [h] at hs
  exact hs

/-- A computation that cannot fail fails within every relation. -/
theorem FailsWithin.of_ok {x : FallibleState σ ε α} (hx : ∀ s, ∃ a, (x s).1 = .ok a) :
    FailsWithin R x := by
  intro s e t h
  obtain ⟨a, ha⟩ := hx s
  rw [h] at ha
  exact nomatch ha

/-- A value does not fail. -/
theorem FailsWithin.pure (a : α) : FailsWithin R (pure a : FallibleState σ ε α) :=
  FailsWithin.of_ok fun _ => ⟨a, rfl⟩

/-- An update does not fail. -/
theorem FailsWithin.modify_pure (f : σ → σ) (a : α) :
    FailsWithin R (modify f >>= fun _ => Pure.pure a : FallibleState σ ε α) :=
  FailsWithin.of_ok fun _ => ⟨a, rfl⟩

/-- An update keeps the relation if its function does. -/
theorem Keeps.modify {f : σ → σ} (hf : ∀ s, R s (f s)) :
    Keeps R (modify f : FallibleState σ ε Unit) := hf

section Refl

variable [Std.Refl R]

/-- A value changes nothing. -/
theorem Keeps.pure (a : α) : Keeps R (pure a : FallibleState σ ε α) := fun s => Std.Refl.refl s

/-- A read changes nothing. -/
theorem Keeps.get : Keeps R (get : FallibleState σ ε σ) := fun s => Std.Refl.refl s

/-- A failure changes nothing. -/
theorem Keeps.fail (e : ε) : Keeps R (fail e : FallibleState σ ε α) := fun s => Std.Refl.refl s

/-- A pure result changes nothing. -/
theorem Keeps.lift (r : Except ε α) : Keeps R (lift r : FallibleState σ ε α) :=
  fun s => Std.Refl.refl s

/-- A check changes nothing. -/
theorem Keeps.failIf (c : Prop) [Decidable c] (e : ε) :
    Keeps R (failIf c e : FallibleState σ ε Unit) := by
  intro s
  rw [run_failIf]
  split <;> exact Std.Refl.refl s

/-- A result computed from no state is known in what follows. -/
theorem Keeps.lift_bind {r : Except ε α} {f : α → FallibleState σ ε β}
    (hf : ∀ a, r = .ok a → Keeps R (f a)) : Keeps R (FallibleState.lift r >>= f) := by
  intro s
  cases r with
  | error e => exact Std.Refl.refl s
  | ok a => exact hf a rfl s

end Refl

section Trans

variable [Trans R R R]

/-- Two computations in a row keep what both keep. -/
theorem Keeps.bind {x : FallibleState σ ε α} {f : α → FallibleState σ ε β} (hx : Keeps R x)
    (hf : ∀ a, Keeps R (f a)) : Keeps R (x >>= f) := by
  intro s
  have hs := hx s
  rw [run_bind]
  rcases h : x s with ⟨r, s'⟩
  rw [h] at hs
  cases r with
  | error e => exact hs
  | ok a => exact Trans.trans hs (hf a s')

/-- The failure of a sequence is one of its parts'. -/
theorem FailsWithin.bind {x : FallibleState σ ε α} {f : α → FallibleState σ ε β}
    (hx : Keeps R x) (hf : ∀ a, FailsWithin R (f a)) : FailsWithin R (x >>= f) := by
  intro s e t h
  rcases bind_error_iff.mp h with h | ⟨a, s', h, h'⟩
  · exact hx.failsWithin s e t h
  · have hs := hx s
    rw [h] at hs
    exact Trans.trans hs (hf a s' e t h')

end Trans

/-! ### The errors of a computation -/

/-- Every error of the computation is one of the kind `P`. -/
def Raises (P : ε → Prop) (x : FallibleState σ ε α) : Prop := ∀ s e t, x s = (.error e, t) → P e

section Raises

variable {P : ε → Prop}

/-- What never fails raises nothing. -/
theorem Raises.of_ok {x : FallibleState σ ε α} (hx : ∀ s, ∃ a, (x s).1 = .ok a) : Raises P x := by
  intro s e t h
  obtain ⟨a, ha⟩ := hx s
  rw [h] at ha
  cases ha

/-- A value raises nothing. -/
theorem Raises.pure (a : α) : Raises P (pure a : FallibleState σ ε α) := .of_ok fun _ => ⟨a, rfl⟩

/-- A read raises nothing. -/
theorem Raises.get : Raises P (get : FallibleState σ ε σ) := .of_ok fun s => ⟨s, rfl⟩

/-- An update raises nothing. -/
theorem Raises.modify (f : σ → σ) : Raises P (modify f : FallibleState σ ε Unit) :=
  .of_ok fun _ => ⟨(), rfl⟩

/-- A failure raises its own error. -/
theorem Raises.fail {e : ε} (he : P e) : Raises P (fail e : FallibleState σ ε α) := by
  intro s e' t h
  obtain rfl := Except.error.inj (Prod.mk.inj h).1
  exact he

/-- A pure result raises its own error. -/
theorem Raises.lift {r : Except ε α} (hr : ∀ e, r = .error e → P e) :
    Raises P (lift r : FallibleState σ ε α) :=
  fun _ e _ h => hr e (Prod.mk.inj h).1

/-- A check raises its own error. -/
theorem Raises.failIf {c : Prop} [Decidable c] {e : ε} (he : P e) :
    Raises P (failIf c e : FallibleState σ ε Unit) := by
  unfold FallibleState.failIf
  split
  · exact .fail he
  · exact .pure ()

/-- Two computations in a row raise what either raises. -/
theorem Raises.bind {x : FallibleState σ ε α} {f : α → FallibleState σ ε β} (hx : Raises P x)
    (hf : ∀ a, Raises P (f a)) : Raises P (x >>= f) := by
  intro s e t h
  rcases bind_error_iff.mp h with h | ⟨a, s', -, h⟩
  · exact hx s e t h
  · exact hf a s' e t h

end Raises

/-! ### Changes a computation does not see -/

/-- Running after the change `g` gives the same result, and the same state changed. -/
def Commutes (g : σ → σ) (x : FallibleState σ ε α) : Prop := ∀ s, x (g s) = ((x s).1, g (x s).2)

section Commutes

variable {g : σ → σ}

/-- A value looks at no state. -/
theorem Commutes.pure (a : α) : Commutes g (pure a : FallibleState σ ε α) := fun _ => rfl

/-- A failure looks at no state. -/
theorem Commutes.fail (e : ε) : Commutes g (fail e : FallibleState σ ε α) := fun _ => rfl

/-- A pure result looks at no state. -/
theorem Commutes.lift (r : Except ε α) : Commutes g (lift r : FallibleState σ ε α) := fun _ => rfl

/-- An update commutes if its function does. -/
theorem Commutes.modify {f : σ → σ} (hf : ∀ s, f (g s) = g (f s)) :
    Commutes g (modify f : FallibleState σ ε Unit) := by
  intro s
  show (Except.ok (), f (g s)) = (Except.ok (), g (f s))
  rw [hf]

/-- A check of what is fixed looks at no state. -/
theorem Commutes.failIf (c : Prop) [Decidable c] (e : ε) :
    Commutes g (failIf c e : FallibleState σ ε Unit) := by
  intro s
  simp only [run_failIf]
  split <;> rfl

/-- Two computations in a row commute if both do. -/
theorem Commutes.bind {x : FallibleState σ ε α} {f : α → FallibleState σ ε β}
    (hx : Commutes g x) (hf : ∀ a, Commutes g (f a)) : Commutes g (x >>= f) := by
  intro s
  rw [run_bind, run_bind, hx s]
  rcases h : x s with ⟨r, s'⟩
  cases r with
  | error e => rfl
  | ok a => exact hf a s'

/-- Reading the state is harmless when what follows looks only at what `g` keeps. -/
theorem Commutes.get_bind {f : σ → FallibleState σ ε β} (hread : ∀ s, f (g s) = f s)
    (hf : ∀ s, Commutes g (f s)) : Commutes g (get >>= f) := by
  intro s
  show f (g s) (g s) = _
  rw [hread]
  exact hf s s

end Commutes

/-! ### Computations on a view of the state -/

/-- `x` does what `y` does on the view of the state. -/
def Sees {τ : Type} (view : σ → τ) (x : FallibleState σ ε α) (y : FallibleState τ ε α) : Prop :=
  ∀ s, y (view s) = ((x s).1, view (x s).2)

section Sees

variable {τ : Type} {view : σ → τ}

/-- A value is the same in both. -/
theorem Sees.pure (a : α) : Sees view (pure a : FallibleState σ ε α) (pure a) := fun _ => rfl

/-- A failure is the same in both. -/
theorem Sees.fail (e : ε) : Sees view (fail e : FallibleState σ ε α) (fail e) := fun _ => rfl

/-- A check of what is fixed is the same in both. -/
theorem Sees.failIf (c : Prop) [Decidable c] (e : ε) :
    Sees view (failIf c e : FallibleState σ ε Unit) (failIf c e) := by
  intro s
  simp only [run_failIf]
  split <;> rfl

/-- Two computations in a row agree if both do. -/
theorem Sees.bind {x : FallibleState σ ε α} {y : FallibleState τ ε α}
    {f : α → FallibleState σ ε β} {g : α → FallibleState τ ε β} (hx : Sees view x y)
    (hf : ∀ a, Sees view (f a) (g a)) : Sees view (x >>= f) (y >>= g) := by
  intro s
  rw [run_bind, run_bind, hx s]
  rcases h : x s with ⟨r, s'⟩
  cases r with
  | error e => rfl
  | ok a => exact hf a s'

end Sees

/-! ### Repeated runs -/

/-- Repeating the computation `x` yields these values, and ends without a further value or with
    an error. -/
inductive Drains (x : FallibleState σ ε (Option α)) : σ → List α → Option ε → Prop
  | done {s t : σ} (h : x s = (.ok none, t)) : Drains x s [] none
  | failed {s t : σ} {e : ε} (h : x s = (.error e, t)) : Drains x s [] (some e)
  | next {s t : σ} {a : α} {as : List α} {o : Option ε} (h : x s = (.ok (some a), t))
      (hrest : Drains x t as o) : Drains x s (a :: as) o

section Drains

variable {x : FallibleState σ ε (Option α)}

/-- The drained run is the only one. -/
theorem Drains.unique {s : σ} {as bs : List α} {o o' : Option ε} (h : Drains x s as o)
    (h' : Drains x s bs o') : bs = as ∧ o' = o := by
  induction h generalizing bs o' with
  | done h =>
    cases h' with
    | done => exact ⟨rfl, rfl⟩
    | failed h' => exact nomatch h.symm.trans h'
    | next h' => exact nomatch h.symm.trans h'
  | failed h =>
    cases h' with
    | done h' => exact nomatch h.symm.trans h'
    | failed h' =>
      obtain ⟨he, -⟩ := Prod.mk.inj (h.symm.trans h')
      rw [Except.error.inj he]
      exact ⟨rfl, rfl⟩
    | next h' => exact nomatch h.symm.trans h'
  | next h _ ih =>
    cases h' with
    | done h' => exact nomatch h.symm.trans h'
    | failed h' => exact nomatch h.symm.trans h'
    | next h' hrest =>
      obtain ⟨ha, rfl⟩ := Prod.mk.inj (h.symm.trans h')
      obtain ⟨rfl, rfl⟩ := ih hrest
      rw [Option.some.inj (Except.ok.inj ha)]
      exact ⟨rfl, rfl⟩

/-- What is read off a view is read off the state. -/
theorem Drains.of_view {τ : Type} {view : σ → τ} {y : FallibleState τ ε (Option α)}
    (hsees : Sees view x y) {v : τ} {as : List α} {o : Option ε} (h : Drains y v as o) {s : σ}
    (hs : view s = v) : Drains x s as o := by
  induction h generalizing s with
  | done h =>
    subst hs
    obtain ⟨hvalue, -⟩ := Prod.mk.inj ((hsees s).symm.trans h)
    exact .done (t := (x s).2) (Prod.ext hvalue rfl)
  | failed h =>
    subst hs
    obtain ⟨hvalue, -⟩ := Prod.mk.inj ((hsees s).symm.trans h)
    exact .failed (t := (x s).2) (Prod.ext hvalue rfl)
  | next h _ ih =>
    subst hs
    obtain ⟨hvalue, hview⟩ := Prod.mk.inj ((hsees s).symm.trans h)
    exact .next (Prod.ext hvalue rfl) (ih hview)

end Drains

end FallibleState
