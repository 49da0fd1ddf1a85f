import MtaHooks.Hooks.Registration
import MtaHooks.Lib.RenewedCell

namespace MtaHooks

/-!
# Recovery of a lost registration

An invocation whose request fails on its registration clears the cached one if both have the
same id, and registers again.  Ids are the scanner's: a new registration may have the id of an
old one, and then a failure on the old one clears the new one.

* `HooksClient.stale_recovery` — two invocations that fail on one registration make two new ones;
* `HooksClient.step_refines` — while no id in use is given again, the cache is a cell that is
  cleared and renewed by allocation;
* `HooksClient.recoversOnce_iff_freshIds` — then, and only then, a recovery clears no
  registration but its own, and a registration that invocations failed on is replaced once.
-/

namespace Hooks

namespace HooksClient

/-! ### What a run does -/

/-- The registration that the request of an invocation failed on, before it recovers. -/
def failed (c : HooksClient) (i : ℕ) : Option Registration :=
  match c.invocation i with
  | .recovering reg _ => some reg
  | _ => none

/-- A step clears the cache for a failure on the cached registration only. -/
def ClearsOwn (c : HooksClient) (a : Action) : Prop :=
  ∀ i cur c', a = .recover i → next c a = some c' → c.registration = some cur →
    c'.registration ≠ some cur → c.failed i = some cur

/-- The step registers the client. -/
def isRegistration : Action → Bool
  | .register _ (some _) => true
  | _ => false

/-- The registrations made in place of the one of the given allocation, which was the last. -/
def replacements (v : ℕ) (steps : List (HooksClient × Action)) : ℕ :=
  steps.countP fun x => isRegistration x.2 && x.1.created == v + 1

/-- The allocation of the registration whose failure a step recovers from. -/
def failure : HooksClient × Action → Option ℕ
  | (c, .recover i) => (c.failed i).map Registration.arc
  | _ => none

/-- The allocations of the registrations that invocations failed on, one for each recovery. -/
def failures (steps : List (HooksClient × Action)) : List ℕ := steps.filterMap failure

/-- A run with these steps that ends in `u`: every recovery clears the registration it failed
    on, or none; and a registration is replaced once if invocations failed on it, however many,
    and never otherwise.  Only the replacement of the last one may be still to come. -/
structure RecoversOnce (steps : List (HooksClient × Action)) (u : HooksClient) : Prop where
  own : ∀ x ∈ steps, ClearsOwn x.1 x.2
  once : ∀ v, replacements v steps +
      (if u.registration = none ∧ v + 1 = u.created then 1 else 0) =
    if v ∈ failures steps then 1 else 0

/-! ### An id given again -/

/-- Two invocations fail on the first registration.  The second one recovers after the first
    has registered the client again, under the same id. -/
def staleActions : List Action :=
  [.registered 0, .registered 1, .hook 0 (some (.httpStatus 404)) false,
    .hook 1 (some (.httpStatus 404)) false, .recover 0, .registered 0,
    .register 0 (some "stages"), .recover 1, .registered 1, .register 1 (some "stages")]

/-- The steps of these invocations. -/
def staleSteps : List (HooksClient × Action) :=
  Machine.trace next (started "stages" 2) staleActions

/-- **A stale failure clears a fresh registration**, and one lost registration is replaced
    twice. -/
theorem stale_recovery :
    ∃ u, Machine.exec next (started "stages" 2) staleActions = some u ∧
      failures staleSteps = [0, 0] ∧ replacements 0 staleSteps + replacements 1 staleSteps = 2 ∧
      (¬ ∀ x ∈ staleSteps, ClearsOwn x.1 x.2) ∧ ¬ RecoversOnce staleSteps u := by
  have hruns : (Machine.exec next (started "stages" 2) staleActions).isSome = true := by
    decide +kernel
  obtain ⟨u, hu⟩ := Option.isSome_iff_exists.mp hruns
  -- The second recovery: what is cached, what failed and what is left.
  have hstep : staleSteps[7]?.map (fun x => (x.2, x.1.registration, x.1.failed 1,
      (next x.1 x.2).map registration)) =
      some (.recover 1, some ⟨1, "stages"⟩, some ⟨0, "stages"⟩, some none) := by
    decide +kernel
  have hown : ¬ ∀ x ∈ staleSteps, ClearsOwn x.1 x.2 := by
    intro h
    obtain ⟨x, hx, hfacts⟩ := Option.map_eq_some_iff.mp hstep
    obtain ⟨hrecover, hfacts⟩ := Prod.mk.inj hfacts
    obtain ⟨hcached, hfacts⟩ := Prod.mk.inj hfacts
    obtain ⟨hfailed, hcleared⟩ := Prod.mk.inj hfacts
    obtain ⟨c', hnext, hnone⟩ := Option.map_eq_some_iff.mp hcleared
    have hsame := h x (List.mem_of_getElem? hx) 1 _ c' hrecover hnext hcached (by simp [hnone])
    rw [hfailed] at hsame
    exact absurd hsame (by decide)
  exact ⟨u, hu, by decide +kernel, by decide +kernel, hown, fun h => hown h.own⟩

/-! ### Ids that are not in use -/

/-- The id of a new registration is not that of one that an invocation may still recover from. -/
def FreshId (c : HooksClient) (a : Action) : Prop :=
  ∀ i id, a = .register i (some id) →
    ∀ j r, (c.invocation j).recoverable = some r → r.id ≠ id

/-- A registration that may still be recovered from and has the id of the cached one is the
    cached one. -/
def Distinct (c : HooksClient) : Prop :=
  ∀ j r, (c.invocation j).recoverable = some r → ∀ cur, c.registration = some cur →
    r.id = cur.id → r = cur

/-- One registration is distinct from itself only. -/
theorem Distinct.started (id : Str) (n : ℕ) : Distinct (started id n) := by
  simp [Distinct, HooksClient.started, Phase.recoverable]

/-- A step that leaves the cache alone, or clears it. -/
theorem Distinct.moved {c c' : HooksClient} (h : Distinct c) {i : ℕ} {p : Phase}
    (hothers : c'.invocation = (c.move i p).invocation)
    (hcached : ∀ cur, c'.registration = some cur → c.registration = some cur)
    (hp : ∀ r, p.recoverable = some r → ∀ cur, c.registration = some cur → r.id = cur.id →
      r = cur) : Distinct c' := by
  intro j r hr cur hcur hid
  rw [hothers] at hr
  by_cases hji : j = i
  · subst hji
    exact hp r (by simpa using hr) cur (hcached cur hcur) hid
  · exact h j r (move_of_ne hji c p ▸ hr) cur (hcached cur hcur) hid

/-- A fresh id keeps registrations distinct. -/
theorem Distinct.step {c c' : HooksClient} {a : Action} (h : Distinct c) (hfresh : FreshId c a)
    (hstep : Steps c a c') : Distinct c' := by
  cases hstep with
  | found hphase hlock hreg =>
    refine h.moved rfl (fun _ hcur => hcur) fun r hr cur hcur _ => ?_
    obtain rfl := Phase.eq_of_recoverable hr
    exact Option.some.inj (hreg.symm.trans hcur)
  | renews hphase hlock hreg =>
    exact h.moved rfl (fun _ hcur => hcur) (by simp [Phase.recoverable])
  -- The new registration is its own, and no other in use has its id.
  | @registers i a hphase id =>
    intro j r hr cur hcur hid
    obtain rfl := Option.some.inj hcur
    by_cases hji : j = i
    · subst hji
      rw [show Phase.recoverable _ = Phase.recoverable (.exchanging ⟨c.created, id⟩ a) from
        congrArg _ (move_self c j _)] at hr
      exact Phase.eq_of_recoverable hr
    · exact absurd hid (hfresh i id rfl j r (move_of_ne hji c _ ▸ hr))
  | refused hphase => exact h.moved rfl (fun _ hcur => hcur) (by simp [Phase.recoverable])
  | @answered i reg a hphase failure late =>
    refine h.moved rfl (fun _ hcur => hcur) fun r hr => ?_
    exact h i r (hphase ▸ recoverable_afterHook hr)
  | recovers hphase hlock =>
    exact h.moved rfl (fun _ hcur => (afterRecovery_eq_some hcur).1) (by simp [Phase.recoverable])
  | drops i => exact h.moved rfl (fun _ hcur => hcur) (by simp [Phase.recoverable])

/-! ### The cache as a cell -/

/-- The cache as a cell: the registrations made, and whether the last one is cached. -/
def cell (c : HooksClient) : RenewedCell.Cell := ⟨c.created, c.registration.isSome⟩

/-- What a step does to the cell. -/
def cellOp (c : HooksClient) : Action → Option RenewedCell.Op
  | .register _ (some _) => some .renew
  | .recover i => (c.failed i).map fun reg => .clear reg.arc
  | _ => none

/-- The cell holds the allocation of the cached registration. -/
theorem Inv.cell_holds {c : HooksClient} (h : Inv c) {v : ℕ} :
    c.cell.Holds v ↔ ∃ cur, c.registration = some cur ∧ cur.arc = v := by
  unfold RenewedCell.Cell.Holds cell
  cases hreg : c.registration with
  | none => simp
  | some cur =>
    have hlast := h.last cur hreg
    simp only [Option.isSome_some, true_and, Option.some.injEq, exists_eq_left']
    omega

/-- A recovery clears the cache if and only if the failed registration is the cached one. -/
theorem afterRecovery_eq {c : HooksClient} (h : Inv c) (hd : Distinct c) {i : ℕ}
    {reg : Registration} (hreg : (c.invocation i).recoverable = some reg) :
    afterRecovery c.registration reg =
      if c.cell.Holds reg.arc then none else c.registration := by
  unfold afterRecovery
  refine if_congr ?_ rfl rfl
  rw [h.cell_holds]
  cases hcached : c.registration with
  | none => simp
  | some cur =>
    simp only [Option.any_some, decide_eq_true_eq, Option.some.injEq, exists_eq_left']
    constructor
    · intro hid
      rw [hd i reg hreg cur hcached hid.symm]
    · intro harc
      rw [h.shared i reg hreg cur hcached harc.symm]

/-- **The cache is a cell that is cleared and renewed by allocation.** -/
theorem step_refines {c c' : HooksClient} {a : Action} (h : Inv c) (hd : Distinct c)
    (hstep : Steps c a c') :
    match cellOp c a with
    | none => c'.cell = c.cell
    | some o => RenewedCell.next c.cell o = some c'.cell := by
  cases hstep with
  | found hphase hlock hreg => exact rfl
  | renews hphase hlock hreg => exact rfl
  -- The holder of the lock found the cache empty, and a cell is renewed only then.
  | @registers i a hphase id =>
    have hempty := (h.renewing i (by rw [hphase]; rfl)).2
    show RenewedCell.next c.cell .renew = some _
    rw [RenewedCell.next, cell, hempty]
    rfl
  | refused hphase => exact rfl
  | answered hphase failure late => exact rfl
  | @recovers i reg a hphase hlock =>
    have hreg : (c.invocation i).recoverable = some reg := by rw [hphase]; rfl
    have hop : cellOp c (.recover i) = some (.clear reg.arc) := by
      rw [cellOp, failed, hphase]
      rfl
    rw [hop]
    show RenewedCell.next c.cell (.clear reg.arc) = some _
    -- A failed registration was made, so the cell may be asked to clear it.
    have holder : reg.arc < c.cell.made := h.older i reg hreg
    rw [RenewedCell.next, if_pos holder, afterRecovery_eq h hd hreg]
    by_cases hholds : c.cell.Holds reg.arc
    · rw [if_pos hholds, if_pos hholds]
      rfl
    · rw [if_neg hholds, if_neg hholds]
      rfl
  | drops i => exact rfl

/-! ### Whole runs -/

/-- An invocation clears its own registration where ids are distinct. -/
theorem clearsOwn_of_distinct {c : HooksClient} (h : Inv c) (hd : Distinct c) (a : Action) :
    ClearsOwn c a := by
  rintro i cur c' rfl hnext hcached hcleared
  cases next_steps hnext with
  | @recovers _ reg a hphase hlock =>
    have hreg : (c.invocation i).recoverable = some reg := by rw [hphase]; rfl
    -- What was cached is cached no more, so the cell held the failed one.
    have hholds : c.cell.Holds reg.arc := by
      by_contra hother
      refine hcleared ?_
      show afterRecovery c.registration reg = some cur
      rw [afterRecovery_eq h hd hreg, if_neg hother, hcached]
    obtain ⟨cur', hcur, harc⟩ := h.cell_holds.mp hholds
    obtain rfl : cur = cur' := Option.some.inj (hcached.symm.trans hcur)
    rw [failed, hphase, h.shared i reg hreg cur hcached harc.symm]

/-- The steps of the client, seen as steps of the cell. -/
def cellSteps (steps : List (HooksClient × Action)) : List (RenewedCell.Cell × RenewedCell.Op) :=
  steps.filterMap fun x => (cellOp x.1 x.2).map (x.1.cell, ·)

/-- The replacements of the cell are those of the registration. -/
theorem replaced_cellSteps (v : ℕ) (steps : List (HooksClient × Action)) :
    RenewedCell.replaced v (cellSteps steps) = replacements v steps := by
  unfold RenewedCell.replaced cellSteps replacements
  rw [List.countP_filterMap]
  refine List.countP_congr fun x _ => ?_
  obtain ⟨c, a⟩ := x
  cases a with
  | register i id => cases id <;> simp [cellOp, isRegistration, cell]
  | recover i => cases hreg : c.failed i <;> simp [cellOp, isRegistration, hreg]
  | registered i => simp [cellOp, isRegistration]
  | hook i failure late => simp [cellOp, isRegistration]
  | drop i => simp [cellOp, isRegistration]

/-- The clears of the cell are the failures of the registration. -/
theorem asked_cellSteps (steps : List (HooksClient × Action)) :
    RenewedCell.asked (cellSteps steps) = failures steps := by
  unfold RenewedCell.asked cellSteps failures
  rw [List.filterMap_filterMap]
  refine List.filterMap_congr fun x _ => ?_
  obtain ⟨c, a⟩ := x
  cases a with
  | register i id => cases id <;> rfl
  | recover i =>
    cases hreg : c.failed i <;> simp [cellOp, failure, hreg, RenewedCell.asks]
  | registered i => rfl
  | hook i failure late => rfl
  | drop i => rfl

/-- A run whose registrations all have fresh ids. -/
theorem RecoversOnce.of_freshIds {id : Str} {n : ℕ} {actions : List Action} {u : HooksClient}
    (h : Machine.exec next (started id n) actions = some u)
    (hfresh : ∀ x ∈ Machine.trace next (started id n) actions, FreshId x.1 x.2) :
    RecoversOnce (Machine.trace next (started id n) actions) u where
  own := by
    have hstart : (Inv (started id n) ∧ Distinct (started id n)) ∧
        ∀ x ∈ ([] : List (HooksClient × Action)), ClearsOwn x.1 x.2 :=
      ⟨⟨.started id n, .started id n⟩, by simp⟩
    have hrun := Machine.exec_invariant_trace
      (P := fun c past => (Inv c ∧ Distinct c) ∧ ∀ x ∈ past, ClearsOwn x.1 x.2) h hstart hfresh
    refine (hrun ?_).2
    rintro c c' a past hnext hid ⟨⟨hc, hd⟩, hpast⟩
    refine ⟨⟨hc.step (next_steps hnext), hd.step hid (next_steps hnext)⟩, fun x hx => ?_⟩
    rcases List.mem_append.mp hx with hx | hx
    · exact hpast x hx
    · rw [List.mem_singleton.mp hx]
      exact clearsOwn_of_distinct hc hd a
  once := by
    obtain ⟨ops, hexec, htrace⟩ : ∃ ops,
        Machine.exec RenewedCell.next RenewedCell.start ops = some u.cell ∧
          Machine.trace RenewedCell.next RenewedCell.start ops =
            cellSteps (Machine.trace next (started id n) actions) := by
      -- Each step of the client is one step of its cell, or none.
      refine Machine.exec_simulates (f := cell) (P := fun c => Inv c ∧ Distinct c) h
        ⟨.started id n, .started id n⟩ hfresh ?_ ?_ ?_
      · intro c c' a hnext hid hc
        exact ⟨hc.1.step (next_steps hnext), hc.2.step hid (next_steps hnext)⟩
      · intro c c' a hnext _ hc hop
        have hstep := step_refines hc.1 hc.2 (next_steps hnext)
        rwa [hop] at hstep
      · intro c c' a o hnext _ hc hop
        have hstep := step_refines hc.1 hc.2 (next_steps hnext)
        rwa [hop] at hstep
    intro v
    have hcell := RenewedCell.replaced_eq hexec v
    rw [htrace, replaced_cellSteps, asked_cellSteps] at hcell
    rw [← hcell]
    have hempty : u.cell.full = false ↔ u.registration = none := by
      cases hreg : u.registration <;> simp [cell, hreg]
    exact congrArg _ (if_congr (by rw [hempty]; rfl) rfl rfl)

/-! ### Ids in use -/

/-- A recovery from another registration with the id of the cached one clears the cache. -/
theorem clears_other {c : HooksClient} {j : ℕ} {reg cur : Registration} {a : Attempts}
    (hphase : c.invocation j = .recovering reg a) (hlock : c.lock = none)
    (hcached : c.registration = some cur) (hid : cur.id = reg.id) (hne : cur ≠ reg) :
    ∃ u, next c (.recover j) = some u ∧ ¬ ClearsOwn c (.recover j) := by
  have hnext : next c (.recover j) = some { c.move j (.registering a) with
      registration := afterRecovery c.registration reg } := by
    simp only [next, hphase, hlock]
  refine ⟨_, hnext, fun h => ?_⟩
  have hcleared : afterRecovery c.registration reg = none := by
    rw [afterRecovery, hcached]
    exact if_pos (by simpa using hid)
  have hown := h j cur _ rfl hnext hcached (by simp [hcleared])
  rw [failed, hphase] at hown
  exact hne (Option.some.inj hown).symm

/-- An id given while it is in use can end with the new registration cleared for a failure on
    the old one. -/
theorem exists_stale {c c' : HooksClient} {a : Action} (hc : Reachable c)
    (hnext : next c a = some c') (hused : ¬ FreshId c a) :
    ∃ more u, (∀ a ∈ more, isRegistration a = false) ∧ Machine.exec next c' more = some u ∧
      ∃ x ∈ Machine.trace next c' more, ¬ ClearsOwn x.1 x.2 := by
  unfold FreshId at hused
  push Not at hused
  obtain ⟨i, id, rfl, j, r, hr, hid⟩ := hused
  have holder := hc.inv.older j r hr
  cases next_steps hnext with
  | @registers _ b hphase _ =>
    -- The invocation that registers holds no registration, so another one uses the id.
    have hne : j ≠ i := by
      rintro rfl
      rw [hphase] at hr
      cases hr
    generalize hfresh : (⟨c.created, id⟩ : Registration) = fresh at hnext ⊢
    have hother : fresh ≠ r := by
      rintro rfl
      rw [← hfresh] at holder
      exact lt_irrefl _ holder
    have hsame : fresh.id = r.id := by rw [← hfresh, hid]
    -- From here on only what is cached, the free lock and invocation `j` matter.
    generalize hc' : ({ c.move i (.exchanging fresh b) with
      registration := some fresh, lock := none, created := c.created + 1 } : HooksClient) = d
    have hlock : d.lock = none := by rw [← hc']
    have hcached : d.registration = some fresh := by rw [← hc']
    have hinvocation : d.invocation j = c.invocation j := by
      rw [← hc']
      exact move_of_ne hne c _
    cases hj : c.invocation j with
    | recovering reg b' =>
      rw [hj] at hr
      obtain rfl : reg = r := Option.some.inj hr
      obtain ⟨u, hu, hstale⟩ :=
        clears_other (hinvocation.trans hj) hlock hcached hsame hother
      refine ⟨[.recover j], u, by simp [isRegistration], Machine.exec_cons.mpr ⟨u, hu, rfl⟩,
        (d, .recover j), ?_, hstale⟩
      rw [Machine.trace_cons hu]
      exact List.mem_cons_self
    | exchanging reg b' =>
      -- The request in flight is answered first.
      rw [hj] at hr
      have hrecovered : b'.recovered = false := by
        by_contra hb
        rw [Phase.recoverable, if_pos (by simpa using hb)] at hr
        cases hr
      obtain rfl := Phase.eq_of_recoverable hr
      have hgone : next d (.hook j (some (.httpStatus 404)) false) =
          some (d.move j (.recovering r { b' with recovered := true })) := by
        simp only [next, hinvocation, hj, afterHook, hrecovered]
        rfl
      obtain ⟨u, hu, hstale⟩ := clears_other (move_self d j _) hlock hcached hsame hother
      refine ⟨[.hook j (some (.httpStatus 404)) false, .recover j], u,
        by simp [isRegistration],
        Machine.exec_cons.mpr ⟨_, hgone, Machine.exec_cons.mpr ⟨u, hu, rfl⟩⟩,
        (d.move j (.recovering r { b' with recovered := true }), .recover j), ?_, hstale⟩
      rw [Machine.trace_cons hgone, Machine.trace_cons hu]
      exact List.mem_cons_of_mem _ List.mem_cons_self
    | registering b' =>
      rw [hj] at hr
      cases hr
    | renewing b' =>
      rw [hj] at hr
      cases hr
    | finished =>
      rw [hj] at hr
      cases hr

/-- **A registration is recovered once while no id in use is given again.**  The ids of a run
    are fresh if and only if at every point of it, however the invocations go on without a
    further registration, every recovery clears its own registration only and every lost
    registration is replaced once. -/
theorem recoversOnce_iff_freshIds {id : Str} {n : ℕ} {actions : List Action} {u : HooksClient}
    (h : Machine.exec next (started id n) actions = some u) :
    (∀ x ∈ Machine.trace next (started id n) actions, FreshId x.1 x.2) ↔
      ∀ done more v, done <+: actions → (∀ a ∈ more, isRegistration a = false) →
        Machine.exec next (started id n) (done ++ more) = some v →
          RecoversOnce (Machine.trace next (started id n) (done ++ more)) v := by
  constructor
  · rintro hfresh done more v ⟨rest, rfl⟩ hmore hv
    obtain ⟨t, hdone, -⟩ := Machine.exec_append.mp h
    rw [Machine.trace_append hdone] at hfresh
    -- The steps up to `done` are steps of the run; those after it register nothing.
    refine .of_freshIds hv fun x hx => ?_
    rw [Machine.trace_append hdone] at hx
    rcases List.mem_append.mp hx with hx | hx
    · exact hfresh x (List.mem_append_left _ hx)
    · obtain ⟨before, after, hsplit, -⟩ := Machine.mem_trace hx
      have hquiet := hmore x.2 (by simp [hsplit])
      intro i id' ha
      rw [ha] at hquiet
      cases hquiet
  · intro hruns x hx
    by_contra hused
    obtain ⟨done, rest, hsplit, hdone⟩ := Machine.mem_trace hx
    rw [hsplit] at h
    obtain ⟨t, ht, hrest⟩ := Machine.exec_append.mp h
    obtain rfl : x.1 = t := Option.some.inj (hdone.symm.trans ht)
    obtain ⟨c', hnext, -⟩ := Machine.exec_cons.mp hrest
    obtain ⟨more, v, hmore, hv, y, hy, hstale⟩ := exists_stale ⟨_, _, _, hdone⟩ hnext hused
    have hstep : Machine.exec next (started id n) (done ++ [x.2]) = some c' :=
      Machine.exec_append.mpr ⟨_, hdone, Machine.exec_cons.mpr ⟨_, hnext, rfl⟩⟩
    have hprefix : done ++ [x.2] <+: actions := ⟨rest, by simp [hsplit]⟩
    -- Stop right after the registration that repeats an id, and go on to the stale failure.
    have honce := hruns (done ++ [x.2]) more v hprefix hmore
      (Machine.exec_append.mpr ⟨_, hstep, hv⟩)
    rw [Machine.trace_append hstep] at honce
    exact hstale (honce.own y (List.mem_append_right _ hy))

/-! ### A scanner that repeats no id -/

/-- The id that a step brings. -/
def given : Action → Option Str
  | .register _ id => id
  | _ => none

/-- The ids of the client, of the cache and of the requests, are among those given. -/
structure Uses (c : HooksClient) (ids : List Str) : Prop where
  held : ∀ j r, (c.invocation j).recoverable = some r → r.id ∈ ids
  cached : ∀ cur, c.registration = some cur → cur.id ∈ ids

/-- An invocation that moves uses ids that are in use. -/
theorem Uses.moved {c c' : HooksClient} {ids : List Str} (h : Uses c ids) {i : ℕ} {p : Phase}
    (hothers : c'.invocation = (c.move i p).invocation)
    (hcached : ∀ cur, c'.registration = some cur → cur.id ∈ ids)
    (hp : ∀ r, p.recoverable = some r → r.id ∈ ids) : Uses c' ids := by
  refine ⟨fun j r hr => ?_, hcached⟩
  rw [hothers] at hr
  by_cases hji : j = i
  · subst hji
    exact hp r (by simpa using hr)
  · exact h.held j r (move_of_ne hji c p ▸ hr)

/-- A step uses ids that are in use, or the one it is given. -/
theorem Uses.step {c c' : HooksClient} {a : Action} {ids : List Str} (h : Uses c ids)
    (hstep : Steps c a c') : Uses c' ((given a).toList ++ ids) := by
  cases hstep with
  | found hphase hlock hreg =>
    refine h.moved rfl h.cached fun r hr => ?_
    obtain rfl := Phase.eq_of_recoverable hr
    exact h.cached _ hreg
  | renews hphase hlock hreg => exact h.moved rfl h.cached (by simp [Phase.recoverable])
  | registers hphase id =>
    have hmore : Uses c (id :: ids) :=
      ⟨fun j r hr => List.mem_cons_of_mem _ (h.held j r hr),
        fun cur hcur => List.mem_cons_of_mem _ (h.cached cur hcur)⟩
    refine hmore.moved rfl (fun cur hcur => ?_) fun r hr => ?_
    · obtain rfl := Option.some.inj hcur
      exact List.mem_cons_self
    · obtain rfl := Phase.eq_of_recoverable hr
      exact List.mem_cons_self
  | refused hphase => exact h.moved rfl h.cached (by simp [Phase.recoverable])
  | @answered i reg a hphase failure late =>
    refine h.moved rfl h.cached fun r hr => ?_
    exact h.held i r (hphase ▸ recoverable_afterHook hr)
  | recovers hphase hlock =>
    refine h.moved rfl (fun cur hcur => ?_) (by simp [Phase.recoverable])
    exact h.cached cur (afterRecovery_eq_some hcur).1
  | drops i => exact h.moved rfl h.cached (by simp [Phase.recoverable])

/-- The ids of a scanner that repeats none are fresh. -/
theorem freshIds_of_nodup {c : HooksClient} {ids : List Str} {actions : List Action}
    (h : Uses c ids) (hnodup : (actions.filterMap given).Nodup)
    (hnew : ∀ id ∈ actions.filterMap given, id ∉ ids) :
    ∀ x ∈ Machine.trace next c actions, FreshId x.1 x.2 := by
  induction actions generalizing c ids with
  | nil => simp
  | cons a actions ih =>
    intro x hx
    rcases List.mem_cons.mp hx with rfl | hx
    -- The id is new, and every id in use is one of those given before.
    · rintro i id rfl j r hr rfl
      exact hnew r.id (by simp [given]) (h.held j r hr)
    · cases hnext : next c a with
      | none => simp [hnext] at hx
      | some c' =>
        rw [hnext] at hx
        have hsplit : (a :: actions).filterMap given =
            (given a).toList ++ actions.filterMap given := by
          cases hgiven : given a <;> simp [hgiven]
        rw [hsplit] at hnodup hnew
        obtain ⟨-, hrest, hdisjoint⟩ := List.nodup_append.mp hnodup
        refine ih (h.step (next_steps hnext)) hrest (fun id hid hmem => ?_) x hx
        rcases List.mem_append.mp hmem with hmem | hmem
        · exact hdisjoint id hmem id hid rfl
        · exact hnew id (List.mem_append_right _ hid) hmem

/-- The two failing invocations with a scanner that gives another id. -/
def freshActions : List Action :=
  [.registered 0, .registered 1, .hook 0 (some (.httpStatus 404)) false,
    .hook 1 (some (.httpStatus 404)) false, .recover 0, .registered 0,
    .register 0 (some "second"), .recover 1, .registered 1]

/-- The steps of these invocations. -/
def freshSteps : List (HooksClient × Action) :=
  Machine.trace next (started "first" 2) freshActions

/-- Two invocations fail with a registration, and it is replaced once. -/
theorem recoversOnce_iff_freshIds_at_fresh :
    ∃ u, RecoversOnce freshSteps u ∧ failures freshSteps = [0, 0] ∧
      replacements 0 freshSteps = 1 := by
  have hruns : (Machine.exec next (started "first" 2) freshActions).isSome = true := by
    decide +kernel
  obtain ⟨u, hu⟩ := Option.isSome_iff_exists.mp hruns
  have huses : Uses (started "first" 2) ["first"] := by
    constructor <;> simp [started, Phase.recoverable]
  have hfresh : ∀ x ∈ freshSteps, FreshId x.1 x.2 :=
    freshIds_of_nodup huses (by decide +kernel) (by decide +kernel)
  have honce : RecoversOnce freshSteps u :=
    (recoversOnce_iff_freshIds hu).mp hfresh freshActions [] u (List.prefix_refl _) (by simp) hu
  exact ⟨u, honce, by decide +kernel, by decide +kernel⟩

end HooksClient

end Hooks

end MtaHooks
