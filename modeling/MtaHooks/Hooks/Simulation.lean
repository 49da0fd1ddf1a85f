import MtaHooks.Hooks.Confinement

namespace MtaHooks

/-!
# The life of the client as a machine of registrations

`HooksClient` knows registrations by their allocation and their id; bodies, answers, pauses and
the log are left out.  The life of a client is a run of that machine, as long as no cached
registration is about to expire and the client is not deregistered.

* `ScannerClient.life_refines` — the refinement.
-/

namespace Hooks

open Invoke (HttpFailure)

namespace ScannerClient

variable {Url Origin : Type} {c : ScannerClient Url Origin} {tasks : ℕ → Task}

/-- A registration without what it says. -/
def Shared.abstract (reg : Shared Url) : Hooks.Registration := ⟨reg.arc, reg.id⟩

/-- A phase without its content; a pause belongs to the request after it. -/
def Phase.abstract : Phase Url → Hooks.Phase
  | .idle => .registering {}
  | .registering x => .registering x.toAttempts
  | .renewing x => .renewing x.toAttempts
  | .exchanging reg _ x | .pausing reg _ x => .exchanging reg.abstract x.toAttempts
  | .recovering reg x => .recovering reg.abstract x.toAttempts
  | .finished _ | .dropped => .finished

/-- The life as a state of the machine of registrations. -/
def Life.abstract (c : ScannerClient Url Origin) (s : Life Url) : HooksClient where
  registration := s.registration.map Shared.abstract
  lock := s.lock
  created := s.created
  maxRetries := c.retries
  invocation := fun i => (s.invocation i).abstract

/-- An invocation that goes on does so in the abstract machine. -/
theorem abstract_move (s : Life Url) (i : ℕ) (p : Phase Url) :
    (s.move i p).abstract c = (s.abstract c).move i p.abstract := by
  unfold Life.abstract HooksClient.move
  congr 1
  funext j
  by_cases hj : j = i
  · subst hj
    rw [Life.move_self, Function.update_self]
  · rw [Life.move_of_ne _ hj, Function.update_of_ne hj]

/-- A request that is sent, or not sent for an error of its body. -/
theorem abstract_project (c : ScannerClient Url Origin) (tasks : ℕ → Task) (s : Life Url)
    (i : ℕ) (reg : Shared Url) (timestamp : Str) (x : Spent) :
    (s.project c tasks i reg timestamp x).abstract c =
        (s.abstract c).move i (.exchanging reg.abstract x.toAttempts) ∨
      (s.project c tasks i reg timestamp x).abstract c = (s.abstract c).move i .finished := by
  unfold Life.project
  split
  next => exact .inr (abstract_move s i _)
  next => exact .inl (abstract_move s i _)

/-- An answer is the machine's, with the failure it stands for. -/
theorem answered_abstract (task : Task) (reg : Shared Url) (body : Json) (x : Spent)
    (exchange : Except HttpFailure Invoke.Response) (now random : ℕ) :
    ∃ failure late, (c.answered task reg body x exchange now random).abstract =
      HooksClient.afterHook c.retries reg.abstract x.toAttempts failure late := by
  unfold answered
  dsimp only
  split
  next => exact ⟨none, false, rfl⟩
  next => exact ⟨none, false, rfl⟩
  next failure _ =>
    obtain ⟨kind, -, hgone, htransient⟩ := Invoke.Client.failureKind_error failure
    unfold HooksClient.afterHook
    split_ifs with hrecovers hretries hlate
    · exact ⟨some kind, false, by simp [hgone, hrecovers, Phase.abstract]⟩
    · exact ⟨some kind, true, by simp [hgone, htransient, hrecovers, hretries, Phase.abstract]⟩
    · exact ⟨some kind, false, by simp [hgone, htransient, hrecovers, hretries, Phase.abstract]⟩
    · exact ⟨some kind, false, by simp [hgone, htransient, hrecovers, hretries, Phase.abstract]⟩

/-- The step finds no registration that is about to expire, and does not deregister. -/
def isCalm (s : Life Url) : Action → Bool
  | .registered _ utc _ => s.registration.all fun reg => reg.isFresh utc
  | .deregister => false
  | _ => true

/-- What the machine of registrations knows of a phase and a cache. -/
theorem abstract_invocation {s : Life Url} {i : ℕ} {p : Phase Url} (h : s.invocation i = p) :
    (s.abstract c).invocation i = p.abstract :=
  congrArg Phase.abstract h

/-- A cached registration is cached in the abstract machine. -/
theorem abstract_registration {s : Life Url} {reg : Shared Url} (h : s.registration = some reg) :
    (s.abstract c).registration = some reg.abstract :=
  congrArg (Option.map Shared.abstract) h

/-- One step is a run. -/
theorem exec_one {s t : HooksClient} {a : Hooks.Action} (h : HooksClient.next s a = some t) :
    ∃ ops, Machine.exec HooksClient.next s ops = some t :=
  ⟨[a], Machine.exec_cons.mpr ⟨t, h, rfl⟩⟩

/-- An invocation that goes on to where it is stays there. -/
theorem move_eq_self {s : HooksClient} {i : ℕ} {p : Hooks.Phase} (h : s.invocation i = p) :
    s.move i p = s := by
  subst h
  unfold HooksClient.move
  rw [Function.update_eq_self]

/-- The last of two moves counts. -/
theorem move_move (s : HooksClient) (i : ℕ) (p q : Hooks.Phase) :
    (s.move i p).move i q = s.move i q := by
  unfold HooksClient.move
  rw [Function.update_idem]

/-- A recovery clears the cache by ids. -/
theorem recovered_abstract (cached : Option (Shared Url)) (reg : Shared Url) :
    (recovered cached reg).map Shared.abstract =
      HooksClient.afterRecovery (cached.map Shared.abstract) reg.abstract := by
  unfold recovered HooksClient.afterRecovery
  rw [Option.any_map]
  show (if (cached.any fun r => r.id = reg.id) = true then none else cached).map _ =
    if (cached.any fun r => r.id = reg.id) = true then none else cached.map _
  split <;> rfl

/-- A dropped invocation that does not hold the lock. -/
theorem drop_unlocked {s : HooksClient} (hlock : s.lock = none) (i : ℕ) :
    HooksClient.next s (.drop i) = some (s.move i .finished) := by
  unfold HooksClient.next HooksClient.move
  rw [hlock]
  rfl

variable [DecidableEq Origin]

/-- **A step of the life is a run of the machine**, of at most two steps: an invocation whose
    request cannot be built is dropped. -/
theorem moves_abstract {s t : Life Url} {a : Action} (hcalm : isCalm s a = true)
    (hmoves : Moves c tasks s a t) :
    ∃ ops, Machine.exec HooksClient.next (s.abstract c) ops = some (t.abstract c) := by
  cases hmoves with
  | @begins i hphase now =>
    refine ⟨[], congrArg some ?_⟩
    have hp : (s.abstract c).invocation i = .registering {} := abstract_invocation hphase
    exact ((abstract_move s i _).trans (move_eq_self hp)).symm
  | @found i x reg utc hphase hlock hreg hfresh timestamp =>
    have hp := abstract_invocation (c := c) hphase
    have hr := abstract_registration (c := c) hreg
    have hl : (s.abstract c).lock = none := hlock
    rcases abstract_project c tasks s i reg timestamp x with hsent | hfailed
    · refine exec_one (a := .registered i) ?_
      rw [hsent]
      simp only [HooksClient.next, hp, hl, hr, Phase.abstract]
    · rw [hfailed]
      exact exec_one (drop_unlocked hl i)
  | @renews i x utc hphase hlock hstale timestamp =>
    have hp := abstract_invocation (c := c) hphase
    have hl : (s.abstract c).lock = none := hlock
    have hr : (s.abstract c).registration = none := by
      cases hreg : s.registration with
      | none => exact congrArg (Option.map Shared.abstract) hreg
      | some reg =>
        rw [isCalm, hreg, Option.all_some, hstale reg hreg] at hcalm
        cases hcalm
    refine exec_one (a := .registered i) ?_
    simp only [HooksClient.next, hp, hl, hr, Phase.abstract]
    exact congrArg (fun u : HooksClient => some { u with lock := some i })
      (abstract_move s i (.renewing x)).symm
  | @confirms i x exchange utc reg hphase hregister timestamp =>
    have hp := abstract_invocation (c := c) hphase
    have hstep : HooksClient.next (s.abstract c) (.register i (some reg.id)) =
        some (((s.confirm utc reg).abstract c).move i
          (.exchanging ⟨s.created, reg.id⟩ x.toAttempts)) := by
      simp only [HooksClient.next, hp, Phase.abstract]
      rfl
    rcases abstract_project c tasks (s.confirm utc reg) i
      { reg with arc := s.created } timestamp x with hsent | hfailed
    · rw [hsent]
      exact exec_one hstep
    · rw [hfailed]
      refine ⟨[_, .drop i], Machine.exec_cons.mpr ⟨_, hstep, ?_⟩⟩
      have hdrop := drop_unlocked (s := ((s.confirm utc reg).abstract c).move i
        (.exchanging ⟨s.created, reg.id⟩ x.toAttempts)) rfl i
      rw [move_move] at hdrop
      exact Machine.exec_cons.mpr ⟨_, hdrop, rfl⟩
  | @refused i x exchange utc e hphase hregister timestamp =>
    have hp := abstract_invocation (c := c) hphase
    refine exec_one (a := .register i none) ?_
    simp only [HooksClient.next, hp, Phase.abstract]
    exact congrArg (fun u : HooksClient => some { u with lock := none })
      (abstract_move s i (.finished (.error e))).symm
  | @answers i reg body x hphase exchange now random =>
    have hp := abstract_invocation (c := c) hphase
    obtain ⟨failure, late, hanswered⟩ :=
      answered_abstract (c := c) (tasks i) reg body x exchange now random
    refine exec_one (a := .hook i failure late) ?_
    rw [abstract_move, hanswered]
    simp only [HooksClient.next, hp, Phase.abstract]
    rfl
  | @resumes i reg body x hphase =>
    refine ⟨[], congrArg some ?_⟩
    have hp : (s.abstract c).invocation i = .exchanging reg.abstract x.toAttempts :=
      abstract_invocation hphase
    exact ((abstract_move s i _).trans (move_eq_self hp)).symm
  | @recovers i reg x hphase hlock =>
    have hp := abstract_invocation (c := c) hphase
    have hl : (s.abstract c).lock = none := hlock
    refine exec_one (a := .recover i) ?_
    have hr : (s.abstract c).registration = s.registration.map Shared.abstract := rfl
    simp only [HooksClient.next, hp, hl, Phase.abstract]
    rw [hr, ← recovered_abstract]
    exact congrArg (fun u : HooksClient => some { u with
      registration := (recovered s.registration reg).map Shared.abstract })
      (abstract_move s i (.registering x)).symm
  | @drops i hactive =>
    refine exec_one (a := .drop i) ?_
    exact congrArg (fun u : HooksClient => some { u with lock := s.lock.filter (· ≠ i) })
      (abstract_move s i .dropped).symm
  | releases hlock => cases hcalm
  | deregisters hlock hreg hurl henabled => cases hcalm

/-- **The life refines the machine of registrations**: a run after startup that finds no cached
    registration about to expire and does not deregister is a run of the machine, which has
    been started with the registration of startup.  So only the holder of the lock registers,
    and only while nothing is cached. -/
theorem life_refines {c : ScannerClient Url Origin} {tasks : ℕ → Task} {log : List (Entry Url)}
    {reg : Registration Url} {actions : List Action} {s : Life Url}
    (h : Machine.exec (c.next tasks) (.started log reg) actions = some s)
    (hcalm : ∀ x ∈ Machine.trace (c.next tasks) (.started log reg) actions,
      isCalm x.1 x.2 = true) :
    (∃ ops, Machine.exec HooksClient.next (HooksClient.started reg.id c.retries) ops =
      some (s.abstract c)) ∧
    ∀ i x, s.invocation i = .renewing x → s.lock = some i ∧ s.registration = none := by
  obtain ⟨ops, hops⟩ := Machine.exec_simulates_runs (f := fun s : Life Url => s.abstract c)
    (P := fun _ => True) h trivial hcalm (fun _ _ _ _ _ _ => trivial)
    fun s t a hnext hcalm _ => moves_abstract hcalm (next_moves hnext)
  refine ⟨⟨ops, hops⟩, fun i x hphase => ?_⟩
  have hinv : HooksClient.Inv (s.abstract c) :=
    Machine.exec_invariant_on hops (.started reg.id c.retries) fun s t a _ hnext hs =>
      hs.step (HooksClient.next_steps hnext)
  obtain ⟨hlock, hcached⟩ := hinv.renewing i (by rw [abstract_invocation hphase]; rfl)
  exact ⟨hlock, Option.map_eq_none_iff.mp hcached⟩

/-- A registration without expiry. -/
def sampleRegistration : Registration Str where
  id := "r-1"
  endpoint := "https://scanner.example/hook"
  deregistration := none
  expires := none
  properties := [ascii "/stage", ascii "/action"]

/-- Two invocations, of which the first one loses its registration and registers again. -/
def sampleRecovery : List Action :=
  [.evaluate 0 100, .evaluate 1 100, .registered 0 200 "t", .hook 0 (.ok { status := 404 }) 120 0,
    .recover 0, .registered 0 300 "t", .evaluate 2 150, .register 0 (.ok sampleCreated) 300 "t",
    .registered 1 400 "t", .hook 1 (.ok { status := 503 }) 160 0, .resume 1, .drop 0]

/-- The run is one of a calm scanner. -/
theorem sampleRecovery_runs :
    (Machine.exec (sampleClient.next sampleTasks) (.started [] sampleRegistration)
      sampleRecovery).isSome ∧
    ∀ x ∈ Machine.trace (sampleClient.next sampleTasks) (.started [] sampleRegistration)
      sampleRecovery, isCalm x.1 x.2 = true := by
  refine ⟨by decide +kernel, ?_⟩
  rw [← List.all_eq_true]
  decide +kernel

/-- The recovery of the sample is a run of the abstract machine. -/
theorem life_refines_at_recovery :
    ∃ s ops, Machine.exec (sampleClient.next sampleTasks) (.started [] sampleRegistration)
        sampleRecovery = some s ∧
      Machine.exec HooksClient.next (HooksClient.started "r-1" 2) ops =
        some (s.abstract sampleClient) := by
  obtain ⟨hruns, hcalm⟩ := sampleRecovery_runs
  obtain ⟨s, hs⟩ := Option.isSome_iff_exists.mp hruns
  obtain ⟨⟨ops, hops⟩, -⟩ := life_refines hs hcalm
  exact ⟨s, ops, hs, hops⟩

end ScannerClient

end Hooks

end MtaHooks
