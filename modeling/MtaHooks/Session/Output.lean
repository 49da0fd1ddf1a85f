import MtaHooks.Session.History

namespace MtaHooks

open FallibleState

/-!
# What a decision may send

The frames of a decision are its modifications, or none, and one final frame; and they stay
within what was negotiated and budgeted.

* `modificationFrames_bounds` — capabilities, sizes and total of the modification part;
* `options_offered` — the options of a session are those of a negotiation in its history;
* `output_within` — the law of every settled decision of every run.
-/

/-! ### Bits of option words -/

/-- The word has all bits of the other. -/
def Grants (word bits : UInt32) : Prop := word &&& bits = bits

/-- Both words have what they have in common. -/
theorem Grants.of_and {x y bits : UInt32} (h : Grants (x &&& y) bits) :
    Grants x bits ∧ Grants y bits := by
  -- What both words share lies in each of them.
  have hself : bits = x &&& (y &&& bits) := by rw [← UInt32.and_assoc]; exact h.symm
  have hself' : bits = y &&& (x &&& bits) := by
    rw [← UInt32.and_assoc, UInt32.and_comm y x]
    exact h.symm
  constructor
  · unfold Grants
    conv_rhs => rw [hself]
    conv_lhs => rw [hself]
    rw [← UInt32.and_assoc, UInt32.and_self]
  · unfold Grants
    conv_rhs => rw [hself']
    conv_lhs => rw [hself']
    rw [← UInt32.and_assoc, UInt32.and_self]

/-- The capability of a modification is one bit. -/
theorem Modification.capability_bit (m : Modification) :
    ∃ k, m.capability.toBitVec = BitVec.twoPow 32 k := by
  cases m with
  | addHeader name value => exact ⟨0, rfl⟩
  | insertHeader index name value => exact ⟨0, rfl⟩
  | insertRawHeader index name value => exact ⟨0, rfl⟩
  | changeHeader occurrence name value => exact ⟨4, rfl⟩
  | replaceBody body => exact ⟨1, rfl⟩
  | changeFrom address parameters => exact ⟨6, rfl⟩
  | addRecipient address parameters =>
    cases parameters with
    | none => exact ⟨2, rfl⟩
    | some p => exact ⟨7, rfl⟩
  | deleteRecipient address => exact ⟨3, rfl⟩
  | quarantine reason => exact ⟨5, rfl⟩

/-- An action that shares a bit with the capability of a modification grants it. -/
theorem grants_capability {word : UInt32} {m : Modification} (h : word &&& m.capability ≠ 0) :
    Grants word m.capability := by
  obtain ⟨k, hk⟩ := m.capability_bit
  refine UInt32.toBitVec_inj.mp ?_
  have hand := BitVec.and_twoPow word.toBitVec k
  rw [← hk, ← UInt32.toBitVec_and] at hand
  -- One bit: either it is in the word, or the conjunction is zero.
  by_cases hbit : word.toBitVec.getLsbD k
  · rw [if_pos hbit] at hand
    exact hand
  · rw [if_neg hbit] at hand
    exact absurd (UInt32.toBitVec_inj.mp hand) h

/-- The verdicts that go with modifications. -/
def Verdict.edits : Verdict → Bool
  | .continue | .accept => true
  | .reject | .tempfail | .discard | .reply .. | .shutdown => false

namespace Session

/-! ### The budget -/

/-- The payload bytes of frames. -/
def payloadTotal (frames : List Frame) : ℕ := (frames.map fun f => f.payload.length).sum

/-- The frames written so far are counted, and within the limits. -/
def WithinBudget (limits : Limits) (acc : List Frame × ℕ) : Prop :=
  acc.2 = payloadTotal acc.1 ∧ acc.2 ≤ limits.messageBytes ∧
    ∀ f ∈ acc.1, f.payload.length + 1 ≤ limits.frameBytes

/-- Nothing is within the budget. -/
theorem WithinBudget.start (limits : Limits) : WithinBudget limits ([], 0) :=
  ⟨rfl, Nat.zero_le _, fun _ h => nomatch h⟩

/-- What the budget takes is within it. -/
theorem WithinBudget.budgetFrames {limits : Limits} {fs : List Frame} {acc acc' : List Frame × ℕ}
    (hacc : WithinBudget limits acc) (h : budgetFrames limits fs acc = .ok acc') :
    WithinBudget limits acc' := by
  induction fs generalizing acc with
  | nil =>
    obtain rfl := Except.ok.inj h
    exact hacc
  | cons f fs ih =>
    obtain ⟨hcount, -, hframes⟩ := hacc
    unfold Session.budgetFrames at h
    obtain ⟨-, h⟩ | ⟨hframe, h⟩ := Result.ite_ok h
    · cases h
    obtain ⟨bytes, hbytes, h⟩ := Result.bind_ok_iff.mp h
    obtain ⟨-, h⟩ | ⟨htotal, h⟩ := Result.ite_ok h
    · cases h
    obtain rfl := checkedAdd_eq_some (okOr_eq_ok.mp hbytes)
    -- The frame fits by itself, and the total with it fits.
    refine ih ⟨?_, Nat.le_of_not_lt htotal, fun g hg => ?_⟩ h
    · show acc.2 + f.payload.length = payloadTotal (acc.1 ++ [f])
      simp [payloadTotal, hcount]
    · rcases List.mem_append.mp hg with hg | hg
      · exact hframes g hg
      · rw [List.mem_singleton.mp hg]
        exact Nat.le_of_not_lt hframe

/-- One modification: its capability is negotiated and the budget is kept. -/
theorem WithinBudget.modificationStep {limits : Limits} {actions : UInt32} {ls : Bool}
    {acc acc' : List Frame × ℕ} {m : Modification} (hacc : WithinBudget limits acc)
    (h : modificationStep limits actions ls acc m = .ok acc') :
    Grants actions m.capability ∧ WithinBudget limits acc' := by
  unfold Session.modificationStep at h
  obtain ⟨-, h⟩ | ⟨hcapability, h⟩ := Result.ite_ok h
  · cases h
  obtain ⟨size, -, h⟩ := Result.bind_ok_iff.mp h
  obtain ⟨total, -, h⟩ := Result.bind_ok_iff.mp h
  obtain ⟨-, h⟩ | ⟨-, h⟩ := Result.ite_ok h
  · cases h
  obtain ⟨fs, hfs, h⟩ := Result.bind_ok_iff.mp h
  exact ⟨grants_capability hcapability, hacc.budgetFrames h⟩

/-- **The bounds of the modification part.** -/
theorem modificationFrames_bounds {limits : Limits} {actions : UInt32} {ls : Bool}
    {modifications : List Modification} {frames : List Frame}
    (h : modificationFrames limits actions ls modifications = .ok frames) :
    (∀ m ∈ modifications, Grants actions m.capability) ∧
      (∀ f ∈ frames, f.payload.length + 1 ≤ limits.frameBytes) ∧
        payloadTotal frames ≤ limits.messageBytes := by
  obtain ⟨acc, hfold, h⟩ := Result.bind_ok_iff.mp h
  obtain rfl := Except.ok.inj h
  -- The fold carries the frames and their total: generalised to any start within the budget.
  suffices hgen : ∀ (ms : List Modification) (start : List Frame × ℕ), WithinBudget limits start →
      ms.foldlM (modificationStep limits actions ls) start = .ok acc →
      (∀ m ∈ ms, Grants actions m.capability) ∧ WithinBudget limits acc by
    obtain ⟨hgrants, hcount, htotal, hframes⟩ := hgen _ _ (.start limits) hfold
    exact ⟨hgrants, hframes, hcount ▸ htotal⟩
  intro ms
  induction ms with
  | nil =>
    intro start hstart hs
    obtain rfl := Except.ok.inj hs
    exact ⟨fun _ h => (nomatch h), hstart⟩
  | cons m ms ih =>
    intro start hstart hs
    rw [List.foldlM_cons] at hs
    obtain ⟨mid, hm, hs⟩ := Result.bind_ok_iff.mp hs
    obtain ⟨hcapability, hmid⟩ := hstart.modificationStep hm
    obtain ⟨hgrants, hacc⟩ := ih mid hmid hs
    exact ⟨List.forall_mem_cons.mpr ⟨hcapability, hgrants⟩, hacc⟩

/-! ### The negotiated options -/

/-- No command changes the actions that the policy asks for. -/
theorem Performs.wantedActions {s u : Session} {c : Command} (h : Performs s c u) :
    u.wantedActions = s.wantedActions := by
  cases h <;> rfl

/-- No decision changes what was negotiated. -/
theorem settle_negotiated (stage : Stage) (v : Verdict) (s : Session) :
    (settle stage v s).options = s.options ∧
      (settle stage v s).wantedActions = s.wantedActions := by
  unfold settle
  dsimp only
  split_ifs <;> exact ⟨rfl, rfl⟩

/-- The options of the session are what was agreed on with an offer in the history. -/
def Agreed (wanted : UInt32) (x : Logged) : Prop :=
  x.1.wantedActions = wanted ∧ ∀ o, x.1.options = some o →
    ∃ e ∈ x.2, ∃ offered, e.command = .negotiate offered ∧ o.actions = offered.actions &&& wanted

/-- A longer history has the same offers. -/
theorem Agreed.later {wanted : UInt32} {s t : Session} {log log' : List Exchange}
    (h : Agreed wanted (s, log)) (hoptions : t.options = s.options)
    (hwanted : t.wantedActions = s.wantedActions)
    (hlog : ∀ e ∈ log, ∃ e' ∈ log', e'.command = e.command) : Agreed wanted (t, log') := by
  refine ⟨hwanted.trans h.1, fun o ho => ?_⟩
  obtain ⟨e, he, offered, hcommand, hactions⟩ := h.2 o (hoptions.symm.trans ho)
  obtain ⟨e', he', hsame⟩ := hlog e he
  exact ⟨e', he', offered, hsame.trans hcommand, hactions⟩

/-- A call that is logged keeps what was agreed on. -/
theorem Logs.agreed {s : Session} {log : List Exchange} {x : Logged} (h : Logs s log x)
    {wanted : UInt32} (hs : Agreed wanted (s, log)) : Agreed wanted x := by
  have hkept : ∀ e ∈ log, ∃ e' ∈ log, e'.command = e.command := fun e he => ⟨e, he, rfl⟩
  cases h with
  | @accepted c step t hpending hopen haccepts =>
    have hlonger : ∀ e ∈ log, ∃ e' ∈ { command := c, options := t.options, step } :: log,
        e'.command = e.command := fun e he => ⟨e, List.mem_cons_of_mem _ he, rfl⟩
    cases haccepts with
    | @negotiate offered reply hstate hversion hreply =>
      -- The offer just accepted is the newest entry of the history.
      refine ⟨hs.1, fun o ho => ?_⟩
      obtain rfl := Option.some.inj ho
      have hwanted : s.wantedActions = wanted := hs.1
      refine ⟨_, List.mem_cons_self, offered, rfl, ?_⟩
      rw [← hwanted]
      rfl
    | macros hstate hbudget => exact hs.later rfl rfl hlonger
    | @perform _ u hstate hperforms =>
      have hawaiting : (u.awaiting c).options = u.options ∧
          (u.awaiting c).wantedActions = u.wantedActions := by
        unfold awaiting
        split <;> exact ⟨rfl, rfl⟩
      exact hs.later (hawaiting.1.trans hperforms.options)
        (hawaiting.2.trans hperforms.wantedActions) hlonger
  | @refused t hsame =>
    exact hs.later hsame.options (congrArg Session.wantedActions hsame).symm hkept
  | @dropped t hpending hready hsame =>
    exact hs.later hsame.options (congrArg Session.wantedActions hsame).symm hkept
  | @decided d stage frames t hcompletes =>
    have hsettled := settle_negotiated stage d.verdict s
    rw [← hcompletes.settled] at hsettled
    refine hs.later hsettled.1 hsettled.2 fun e he => ?_
    -- The decision is written into the newest entry, whose command stays.
    cases log with
    | nil => exact nomatch he
    | cons e' log =>
      rcases List.mem_cons.mp he with rfl | he
      · exact ⟨_, List.mem_cons_self, rfl⟩
      · exact ⟨e, List.mem_cons_of_mem _ he, rfl⟩

/-- **The options of a session were offered.** -/
theorem options_offered {s : Session} (hs : s.Initial) (calls : List Call) :
    Agreed s.wantedActions (loggedAfter s calls) := by
  refine logged_invariant hs ?_ (fun _ _ _ _ h hl => hl.agreed h) calls
  refine ⟨rfl, fun o ho => ?_⟩
  obtain ⟨limits, stages, wantedActions, macroLists, rfl⟩ := hs
  exact nomatch ho

/-! ### The law of a decision -/

/-- More modifications than allowed are refused. -/
theorem complete_count {d : Decision} {s t : Session} {frames : List Frame}
    (h : complete d s = (.ok frames, t)) : d.modifications.length ≤ s.limits.modifications := by
  replace h := get_bind_ok_iff.mp h
  obtain ⟨stage, -, h⟩ := lift_bind_ok_iff.mp h
  obtain ⟨o, -, h⟩ := lift_bind_ok_iff.mp h
  obtain ⟨-, h⟩ := failIf_bind_ok_iff.mp h
  obtain ⟨_, _, hmany, -⟩ := bind_ok_iff.mp h
  exact Nat.le_of_not_lt (failIf_ok_iff.mp hmany).1

/-- The verdicts that leave no edits to apply. -/
theorem edits_eq_false {v : Verdict} : v.edits = false ↔ rejected v ∨ v = .discard := by
  cases v <;> simp [Verdict.edits, rejected]

/-- **What a decision sends** is within what was negotiated and budgeted, in every run. -/
theorem output_within {limits : Limits} {stages : List Stage} {wanted : UInt32}
    {macroLists : MacroLists} {calls : List Call} {d : Decision} {frames : List Frame}
    {s₀ s t : Session} (hs₀ : s₀ = (new limits stages wanted).requestMacros macroLists)
    (hs : s = Machine.after call s₀ calls) (h : complete d s = (.ok frames, t)) :
    ∃ stage o offered parts final edits,
      s.pending = some stage ∧ s.options = some o ∧
      -- the parts
      frames = edits ++ [final] ∧ finalFrame d.verdict = .ok final ∧
      edits = (if d.verdict.edits then List.flatten parts else []) ∧
      List.Forall₂ (fun m fs => Modification.frames s.leadingSpace m = .ok fs) d.modifications
        parts ∧
      (d.modifications ≠ [] → stage = .endMessage) ∧ (edits ≠ [] → stage = .endMessage) ∧
      -- the capabilities
      (∃ e ∈ history s₀ calls, e.command = .negotiate offered) ∧
      (∀ m ∈ d.modifications, Grants o.actions m.capability ∧ Grants offered.actions m.capability ∧
        Grants wanted m.capability) ∧
      -- the budgets
      d.modifications.length ≤ limits.modifications ∧
      (∀ f ∈ frames, f.payload.length + 1 ≤ limits.frameBytes) ∧
      (edits.map fun f => f.payload.length).sum ≤ limits.messageBytes := by
  have hinitial : s₀.Initial := ⟨limits, stages, wanted, macroLists, hs₀⟩
  have hreachable : Reachable s₀ := Machine.Reachable.init hinitial
  have hlimits : s.limits = limits := by
    rw [hs, (hreachable.after calls).2, hs₀]
    rfl
  have hcount := complete_count h
  obtain ⟨stage, hpending, hend, ⟨o, mods, final, ho, hmods, hfinal, hfits, rfl⟩, -⟩ :=
    complete_ok h
  obtain ⟨parts, hparts, rfl⟩ := modificationFrames_ok hmods
  obtain ⟨hgrants, hframes, htotal⟩ := modificationFrames_bounds hmods
  obtain ⟨hwanted, hoffered⟩ := options_offered hinitial calls
  rw [loggedAfter_session, ← hs] at hoffered
  obtain ⟨e, he, offered, hcommand, hactions⟩ := hoffered o ho
  rw [hlimits] at hcount hframes htotal hfits
  -- the modification part is what the verdict leaves of the frames
  have hedits : (if rejected d.verdict ∨ d.verdict = .discard then [] else List.flatten parts) =
      if d.verdict.edits then List.flatten parts else [] := by
    by_cases hv : d.verdict.edits = true
    · rw [if_pos hv, if_neg fun h => absurd (edits_eq_false.mpr h) (by rw [hv]; decide)]
    · rw [if_neg hv, if_pos (edits_eq_false.mp (Bool.not_eq_true _ ▸ hv))]
  rw [hedits]
  refine ⟨stage, o, offered, parts, final, _, hpending, ho, rfl, hfinal, rfl, hparts, hend, ?_,
    ⟨e, he, hcommand⟩, ?_, hcount, ?_, ?_⟩
  -- Without modifications there are no parts, so something to send means EOM.
  · intro hne
    refine hend fun hnone => hne ?_
    rw [hnone, List.forall₂_nil_left_iff] at hparts
    rw [hparts]
    split <;> rfl
  · intro m hm
    have hgrant := hgrants m hm
    -- The actions of the session are what was offered, wanted and supported.
    have hboth : Grants (offered.actions &&& (wanted &&& supportedActions)) m.capability := by
      have hword : s₀.wantedActions = wanted &&& supportedActions := by rw [hs₀]; rfl
      rw [← hword, ← hactions]
      exact hgrant
    exact ⟨hgrant, hboth.of_and.1, hboth.of_and.2.of_and.1⟩
  · intro f hf
    rcases List.mem_append.mp hf with hf | hf
    · split at hf
      · exact hframes f hf
      · exact nomatch hf
    · rw [List.mem_singleton.mp hf]
      exact hfits
  · split
    · exact htotal
    · exact Nat.zero_le _

/-- The session at the end of a message without headers. -/
def emptyMessage : Session :=
  Sample.received [] [Sample.offer, Sample.connect, Sample.mail, Sample.rcpt "<b>", Sample.data,
    Sample.endHeaders, Sample.endMessage]

/-- The output of the sample is within its bounds. -/
theorem output_within_at_header :
    ∃ frames edits final,
      (complete { modifications := [.addHeader "A" "1"] } emptyMessage).1 = .ok frames ∧
      frames = edits ++ [final] ∧ (edits.map fun f => f.payload.length).sum ≤ 26214400 := by
  have hok : (complete { modifications := [.addHeader "A" "1"] } emptyMessage).1 =
      .ok [⟨byte 'h', ascii "A" ++ [0] ++ ascii "1" ++ [0]⟩, .empty (byte 'c')] := by decide +kernel
  have hcomplete : complete { modifications := [.addHeader "A" "1"] } emptyMessage = (.ok _, _) :=
    Prod.ext hok rfl
  have hinitial : Sample.session [] = (new {} [] supportedActions).requestMacros [] := rfl
  obtain ⟨-, -, -, -, final, edits, -, -, hframes, -, -, -, -, -, -, -, -, -, htotal⟩ :=
    output_within hinitial rfl hcomplete
  exact ⟨_, edits, final, hok, hframes, htotal⟩

end Session

end MtaHooks
