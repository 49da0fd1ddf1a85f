import Mathlib.Tactic.Common

namespace Machine

/-!
# Runs of a deterministic machine

A machine answers every input and moves to a next state.  `run` feeds it a list of inputs;
`Reachable` collects the states of all runs from the initial ones.

* `Reachable.invariant` — what holds initially and is preserved by every step holds in
  every reachable state;
* `run_lockstep` — two machines that stay related and answer alike in one step answer alike
  in every run;
* `run_invariant_on` — the same for the inputs of one class only;
* `run_invariant_of` — the same for runs with answers of one class only;
* `exec_invariant_trace`, `exec_simulates`, `exec_simulates_runs` — for machines that can be
  stuck: what the steps of a run preserve, and a run seen as a run of another machine.
-/

variable {σ τ ι κ ο : Type*}

/-- The answers of a run and the state it ends in. -/
def run (step : σ → ι → ο × σ) (s : σ) : List ι → List ο × σ
  | [] => ([], s)
  | i :: is => ((step s i).1 :: (run step (step s i).2 is).1, (run step (step s i).2 is).2)

/-- The state a run ends in. -/
def after (step : σ → ι → ο × σ) (s : σ) (is : List ι) : σ := (run step s is).2

variable {step : σ → ι → ο × σ}

/-- Nothing happens without an input. -/
@[simp] theorem after_nil (s : σ) : after step s [] = s := rfl

/-- A run goes on from its first step. -/
@[simp] theorem after_cons (s : σ) (i : ι) (is : List ι) :
    after step s (i :: is) = after step (step s i).2 is := rfl

/-- A run in two parts. -/
theorem after_append (s : σ) (is js : List ι) :
    after step s (is ++ js) = after step (after step s is) js := by
  induction is generalizing s with
  | nil => rfl
  | cons i is ih => exact ih (step s i).2

/-- The states of all runs from the initial states. -/
def Reachable (step : σ → ι → ο × σ) (init : σ → Prop) (s : σ) : Prop :=
  ∃ s₀ is, init s₀ ∧ after step s₀ is = s

/-- A first state is reachable. -/
theorem Reachable.init {init : σ → Prop} {s : σ} (h : init s) : Reachable step init s :=
  ⟨s, [], h, rfl⟩

/-- A step from a reachable state leads to one. -/
theorem Reachable.next {init : σ → Prop} {s : σ} (h : Reachable step init s) (i : ι) :
    Reachable step init (step s i).2 := by
  obtain ⟨s₀, is, h₀, rfl⟩ := h
  exact ⟨s₀, is ++ [i], h₀, by rw [after_append]; rfl⟩

/-- **Invariant rule for the inputs of a run.**  What every input of the run preserves is
    preserved by the run. -/
theorem run_invariant_on {P : σ → Prop} (is : List ι) (s : σ) (hs : P s)
    (hstep : ∀ s, ∀ i ∈ is, P s → P (step s i).2) : P (after step s is) := by
  induction is generalizing s with
  | nil => exact hs
  | cons i is ih =>
    have hi : P (step s i).2 := hstep s i List.mem_cons_self hs
    exact ih _ hi fun s j hj => hstep s j (List.mem_cons_of_mem i hj)

/-- **Invariant rule.**  What holds initially and is preserved by every step holds in every
    reachable state. -/
theorem Reachable.invariant {init P : σ → Prop} (hinit : ∀ s, init s → P s)
    (hstep : ∀ s i, P s → P (step s i).2) {s : σ} (h : Reachable step init s) : P s := by
  obtain ⟨s₀, is, h₀, rfl⟩ := h
  exact run_invariant_on is s₀ (hinit s₀ h₀) fun s i _ => hstep s i

/-- **Invariant rule for the answers of a run.**  What every input preserves that is answered in
    one way is preserved by a run with only such answers. -/
theorem run_invariant_of {P : σ → Prop} {Q : ο → Prop} (is : List ι) {s : σ} (hs : P s)
    (hanswers : ∀ o ∈ (run step s is).1, Q o)
    (hstep : ∀ s i, P s → Q (step s i).1 → P (step s i).2) : P (after step s is) := by
  induction is generalizing s with
  | nil => exact hs
  | cons i is ih =>
    have hi : P (step s i).2 := hstep s i hs (hanswers _ List.mem_cons_self)
    exact ih hi fun o ho => hanswers o (List.mem_cons_of_mem _ ho)

/-- **Lockstep rule.**  If related states answer every input alike and stay related, whole
    runs from related states answer alike and end related. -/
theorem run_lockstep {step' : τ → ι → ο × τ} {R : σ → τ → Prop}
    (hR : ∀ s t i, R s t → (step s i).1 = (step' t i).1 ∧ R (step s i).2 (step' t i).2)
    (is : List ι) {s : σ} {t : τ} (h : R s t) :
    (run step s is).1 = (run step' t is).1 ∧ R (after step s is) (after step' t is) := by
  induction is generalizing s t with
  | nil => exact ⟨rfl, h⟩
  | cons i is ih =>
    obtain ⟨hout, hnext⟩ := hR s t i h
    obtain ⟨houts, hend⟩ := ih hnext
    refine ⟨?_, hend⟩
    show (step s i).1 :: _ = (step' t i).1 :: _
    rw [hout, houts]

/-! ### Partial machines

A partial machine has no next state for an input that cannot happen. -/

section Partial

variable {next : σ → ι → Option σ}

/-- The state after a list of inputs, if all of them can happen. -/
def exec (next : σ → ι → Option σ) (s : σ) (is : List ι) : Option σ := is.foldlM next s

/-- Nothing happens without an input. -/
@[simp] theorem exec_nil (s : σ) : exec next s [] = some s := rfl

/-- A run goes on from its first step. -/
theorem exec_cons {s u : σ} {i : ι} {is : List ι} :
    exec next s (i :: is) = some u ↔ ∃ t, next s i = some t ∧ exec next t is = some u := by
  simp [exec, List.foldlM_cons, Option.bind_eq_some_iff]

/-- A run in two parts. -/
theorem exec_append {s u : σ} {is js : List ι} :
    exec next s (is ++ js) = some u ↔ ∃ t, exec next s is = some t ∧ exec next t js = some u := by
  simp [exec, List.foldlM_append, Option.bind_eq_some_iff]

/-- **Invariant rule for a partial run.**  What every input of the run preserves is preserved
    by the run. -/
theorem exec_invariant_on {P : σ → Prop} {is : List ι} {s u : σ} (h : exec next s is = some u)
    (hs : P s) (hnext : ∀ s t, ∀ i ∈ is, next s i = some t → P s → P t) : P u := by
  induction is generalizing s with
  | nil =>
    obtain rfl := Option.some.inj h
    exact hs
  | cons i is ih =>
    obtain ⟨t, hi, ht⟩ := exec_cons.mp h
    have hPt : P t := hnext s t i List.mem_cons_self hi hs
    exact ih ht hPt fun s t j hj => hnext s t j (List.mem_cons_of_mem i hj)

/-- The steps of a run: the state before each input, and the input. -/
def trace (next : σ → ι → Option σ) (s : σ) : List ι → List (σ × ι)
  | [] => []
  | i :: is => (s, i) :: ((next s i).map fun t => trace next t is).getD []

/-- The empty run has no steps. -/
@[simp] theorem trace_nil (s : σ) : trace next s [] = [] := rfl

/-- The first step of a run, and the others. -/
theorem trace_cons {s t : σ} {i : ι} (h : next s i = some t) (is : List ι) :
    trace next s (i :: is) = (s, i) :: trace next t is := by
  rw [trace, h]
  rfl

/-- The steps of a run in two parts. -/
theorem trace_append {s t : σ} {is : List ι} (h : exec next s is = some t) (js : List ι) :
    trace next s (is ++ js) = trace next s is ++ trace next t js := by
  induction is generalizing s with
  | nil =>
    obtain rfl := Option.some.inj h
    rfl
  | cons i is ih =>
    obtain ⟨s', hi, hs'⟩ := exec_cons.mp h
    rw [List.cons_append, trace_cons hi, trace_cons hi, ih hs', List.cons_append]

/-- A step of a run: what was done before it, and what was to be done. -/
theorem mem_trace {s : σ} {is : List ι} {x : σ × ι} (hx : x ∈ trace next s is) :
    ∃ done rest, is = done ++ x.2 :: rest ∧ exec next s done = some x.1 := by
  induction is generalizing s with
  | nil => cases hx
  | cons i is ih =>
    rcases List.mem_cons.mp hx with rfl | hx
    · exact ⟨[], is, rfl, rfl⟩
    · cases hi : next s i with
      | none =>
        rw [hi] at hx
        cases hx
      | some t =>
        rw [hi] at hx
        obtain ⟨done, rest, rfl, hdone⟩ := ih hx
        exact ⟨i :: done, rest, rfl, exec_cons.mpr ⟨t, hi, hdone⟩⟩

/-- **Invariant rule for the steps of a run.**  What a step of the kind `Q` preserves, of the
    state and the steps so far, a run of such steps preserves. -/
theorem exec_invariant_trace {P : σ → List (σ × ι) → Prop} {Q : σ → ι → Prop} {is : List ι}
    {s u : σ} {past : List (σ × ι)} (h : exec next s is = some u) (hs : P s past)
    (hQ : ∀ x ∈ trace next s is, Q x.1 x.2)
    (hnext : ∀ s t i past, next s i = some t → Q s i → P s past → P t (past ++ [(s, i)])) :
    P u (past ++ trace next s is) := by
  induction is generalizing s past with
  | nil =>
    obtain rfl := Option.some.inj h
    rwa [trace_nil, List.append_nil]
  | cons i is ih =>
    obtain ⟨t, hi, ht⟩ := exec_cons.mp h
    rw [trace_cons hi] at hQ ⊢
    have hPt : P t (past ++ [(s, i)]) := hnext s t i past hi (hQ _ List.mem_cons_self) hs
    have hend := ih ht hPt fun x hx => hQ x (List.mem_cons_of_mem _ hx)
    rwa [List.append_assoc] at hend

/-- **Simulation rule.**  A step is seen through `f` as a step of another machine, or changes
    nothing there; then so is a run, with its steps. -/
theorem exec_simulates {next' : τ → κ → Option τ} {f : σ → τ} {op : σ → ι → Option κ}
    {P : σ → Prop} {Q : σ → ι → Prop} {is : List ι} {s u : σ} (h : exec next s is = some u)
    (hs : P s) (hQ : ∀ x ∈ trace next s is, Q x.1 x.2)
    (hP : ∀ s t i, next s i = some t → Q s i → P s → P t)
    (hsilent : ∀ s t i, next s i = some t → Q s i → P s → op s i = none → f t = f s)
    (hop : ∀ s t i o, next s i = some t → Q s i → P s → op s i = some o →
      next' (f s) o = some (f t)) :
    ∃ ops, exec next' (f s) ops = some (f u) ∧
      trace next' (f s) ops =
        (trace next s is).filterMap fun x => (op x.1 x.2).map (f x.1, ·) := by
  induction is generalizing s with
  | nil =>
    obtain rfl := Option.some.inj h
    exact ⟨[], rfl, rfl⟩
  | cons i is ih =>
    obtain ⟨t, hi, ht⟩ := exec_cons.mp h
    rw [trace_cons hi] at hQ ⊢
    have hqi : Q s i := hQ _ List.mem_cons_self
    obtain ⟨ops, hexec, htrace⟩ :=
      ih ht (hP s t i hi hqi hs) fun x hx => hQ x (List.mem_cons_of_mem _ hx)
    cases ho : op s i with
    | none =>
      rw [hsilent s t i hi hqi hs ho] at hexec htrace
      refine ⟨ops, hexec, ?_⟩
      rw [List.filterMap_cons_none (by rw [ho]; rfl), htrace]
    | some o =>
      have hstep := hop s t i o hi hqi hs ho
      refine ⟨o :: ops, exec_cons.mpr ⟨_, hstep, hexec⟩, ?_⟩
      rw [trace_cons hstep, htrace, List.filterMap_cons_some (by rw [ho]; rfl)]

/-- **Simulation rule for runs.**  A step is seen through `f` as a run of another machine; then
    so is a run. -/
theorem exec_simulates_runs {next' : τ → κ → Option τ} {f : σ → τ} {P : σ → Prop}
    {Q : σ → ι → Prop} {is : List ι} {s u : σ} (h : exec next s is = some u) (hs : P s)
    (hQ : ∀ x ∈ trace next s is, Q x.1 x.2)
    (hP : ∀ s t i, next s i = some t → Q s i → P s → P t)
    (hstep : ∀ s t i, next s i = some t → Q s i → P s →
      ∃ ops, exec next' (f s) ops = some (f t)) :
    ∃ ops, exec next' (f s) ops = some (f u) := by
  induction is generalizing s with
  | nil =>
    obtain rfl := Option.some.inj h
    exact ⟨[], rfl⟩
  | cons i is ih =>
    obtain ⟨t, hi, ht⟩ := exec_cons.mp h
    rw [trace_cons hi] at hQ
    have hqi : Q s i := hQ _ List.mem_cons_self
    obtain ⟨ops, hops⟩ := hstep s t i hi hqi hs
    obtain ⟨ops', hops'⟩ :=
      ih ht (hP s t i hi hqi hs) fun x hx => hQ x (List.mem_cons_of_mem _ hx)
    exact ⟨ops ++ ops', exec_append.mpr ⟨f t, hops, hops'⟩⟩

end Partial

end Machine
