import MtaHooks.Session.History

namespace MtaHooks

open FallibleState

/-!
# Reply discipline

What the negotiated protocol word promises for a command, and that a session keeps it:

* `Exchange.Promised` — the replies one exchange has to have, from its command, its options
  and its decision;
* `replies_promised` — in every run every exchange has the promised replies, and a command is
  accepted only after the callback of the one before was decided.
-/

/-! ### Kinds of reply frames -/

/-- The commands of final replies. -/
def finalReplies : Bytes := "cartdy4"

/-- The commands of modification frames. -/
def editReplies : Bytes := "himbe+2-q"

/-- The frame of a verdict is a final reply. -/
theorem finalFrame_final {v : Verdict} {f : Frame} (h : Session.finalFrame v = .ok f) :
    f.command ∈ finalReplies := by
  cases v with
  | reply code enhanced message =>
    obtain ⟨_, -, h⟩ := Result.bind_ok_iff.mp h
    obtain ⟨_, -, h⟩ := Result.bind_ok_iff.mp h
    obtain ⟨_, -, h⟩ := Result.bind_ok_iff.mp h
    rw [stringFrame_command h]
    decide +kernel
  | _ =>
    obtain rfl := Except.ok.inj h
    decide +kernel

/-- The frames of a modification are modification frames. -/
theorem frames_edit {ls : Bool} {m : Modification} {fs : List Frame} (h : m.frames ls = .ok fs) :
    ∀ f ∈ fs, f.command ∈ editReplies := by
  intro f hf
  rw [Modification.frames_command h f hf]
  cases m with
  | addRecipient address parameters =>
    cases parameters <;> (simp only [Modification.opcode]; decide +kernel)
  | _ => simp only [Modification.opcode]; decide +kernel

/-! ### What an exchange is promised -/

/-- Only modification frames, then one final reply. -/
def Answered (frames : List Frame) : Prop :=
  ∃ edits final, frames = edits ++ [final] ∧ final.command ∈ finalReplies ∧
    ∀ f ∈ edits, f.command ∈ editReplies

namespace Exchange

/-- No reply and no callback. -/
def Silent (e : Exchange) : Prop :=
  e.step.frames = [] ∧ e.step.event = none ∧ e.decision = none

/-- The reply `c` at once, or a callback whose decision is one final reply. -/
def OneReply (e : Exchange) : Prop :=
  (e.step.frames = [.empty (byte 'c')] ∧ e.step.event = none ∧ e.decision = none) ∨
  (e.step.frames = [] ∧ e.step.event.isSome ∧ e.step.event = e.command.stage ∧
    ∀ d frames, e.decision = some (d, frames) →
      ∃ final, frames = [final] ∧ final.command ∈ finalReplies)

/-- One reply, unless the no-reply bit of the command was negotiated. -/
def Metered (e : Exchange) : Prop :=
  ∃ o b, e.options = some o ∧ e.command.replyBit = some b ∧
    (o.protocol &&& b = 0 → e.OneReply) ∧ (o.protocol &&& b ≠ 0 → e.Silent)

/-- The replies the negotiated word promises for the command. -/
def Promised (e : Exchange) : Prop :=
  match e.command with
  | .negotiate _ =>
    ∃ reply, e.step = { frames := [reply] } ∧ reply.command = byte 'O' ∧ e.decision = none
  | .macros _ _ | .abort | .quit | .quitNewConnection => e.Silent
  | .endMessage =>
    e.step.frames = [] ∧ e.step.event = some .endMessage ∧
      ∀ d frames, e.decision = some (d, frames) → Answered frames
  | .connect _ | .helo _ | .mail _ | .recipient _ | .data | .header _ _ | .endHeaders | .body _
  | .unknown _ => e.Metered

end Exchange

namespace Session

/-! ### Callbacks and no-reply bits -/

/-- The no-reply bit of a subscribed stage is never agreed on. -/
def BitsAgree (s : Session) : Prop :=
  ∀ o, s.options = some o → ∀ flag ∈ stageFlags, flag.1 ∈ s.stages → o.protocol &&& flag.2 = 0

/-- A mask misses two words if it misses each. -/
private theorem or_and_eq_zero {x y z : UInt32} (hx : x &&& z = 0) (hy : y &&& z = 0) :
    (x ||| y) &&& z = 0 := by
  have hdistrib : (x ||| y) &&& z = (x &&& z) ||| (y &&& z) :=
    UInt32.toBitVec_inj.1 BitVec.and_or_distrib_right
  rw [hdistrib, hx, hy]
  rfl

/-- The bit of a subscribed stage is in no word the filter is ready for. -/
theorem wantedProtocol_flag {stages : List Stage} {flag : Stage × UInt32} (h : flag ∈ stageFlags)
    (hstage : flag.1 ∈ stages) : wantedProtocol stages &&& flag.2 = 0 := by
  have hdisjoint : ∀ f ∈ stageFlags, ∀ g ∈ stageFlags, g.1 ≠ f.1 → g.2 &&& f.2 = 0 := by decide
  have hbase : ∀ f ∈ stageFlags,
      (nrHeader ||| nrData ||| nrUnknown ||| nrEoh ||| nrBody ||| headerLeadingSpace) &&& f.2
        = 0 := by decide
  suffices hfold : ∀ (flags : List (Stage × UInt32)) (word : UInt32), flags ⊆ stageFlags →
      word &&& flag.2 = 0 →
      flags.foldl (fun protocol g => if g.1 ∈ stages then protocol else protocol ||| g.2) word
        &&& flag.2 = 0 from hfold _ _ (List.Subset.refl _) (hbase flag h)
  intro flags
  induction flags with
  | nil => exact fun _ _ hword => hword
  | cons g flags ih =>
    intro word hsub hword
    have hg : g ∈ stageFlags := hsub List.mem_cons_self
    refine ih _ (fun f hf => hsub (List.mem_cons_of_mem g hf)) ?_
    show (if g.1 ∈ stages then word else word ||| g.2) &&& flag.2 = 0
    by_cases hin : g.1 ∈ stages
    · rw [if_pos hin]
      exact hword
    · have hne : g.1 ≠ flag.1 := fun heq => hin (heq ▸ hstage)
      rw [if_neg hin, or_and_eq_zero hword (hdisjoint flag h g hg hne)]

/-- A new session has negotiated nothing. -/
theorem Initial.bitsAgree {s : Session} (h : Initial s) : BitsAgree s := by
  obtain ⟨limits, stages, wantedActions, macroLists, rfl⟩ := h
  exact fun _ ho => nomatch ho

/-- Only the options and the stages matter. -/
theorem BitsAgree.of_eq {s t : Session} (h : BitsAgree s) (hoptions : t.options = s.options)
    (hstages : t.stages = s.stages) : BitsAgree t := by
  intro o ho
  rw [hoptions] at ho
  rw [hstages]
  exact h o ho

/-- To await a decision leaves the options alone. -/
theorem awaiting_options (u : Session) (c : Command) : (u.awaiting c).options = u.options := by
  unfold awaiting
  split <;> rfl

/-- A decision leaves the options alone. -/
theorem settle_options (stage : Stage) (v : Verdict) (s : Session) :
    (settle stage v s).options = s.options := by
  unfold settle
  dsimp only
  split_ifs <;> rfl

/-- An accepted command keeps the bits in agreement with the stages. -/
theorem Accepts.bitsAgree {s t : Session} {c : Command} {step : Step} (h : Accepts s c step t)
    (hs : BitsAgree s) : BitsAgree t := by
  cases h with
  | @negotiate offered reply hstate hversion hreply =>
    intro o ho flag hflag hstage
    obtain rfl := Option.some.inj ho
    show offered.protocol &&& wantedProtocol s.stages &&& flag.2 = 0
    rw [UInt32.and_assoc, wantedProtocol_flag hflag hstage, UInt32.and_zero]
  | macros _ _ => exact hs
  | @perform _ u _ hperforms =>
    obtain ⟨-, hstages⟩ := hperforms.fixed
    obtain ⟨-, hstages'⟩ := awaiting_fixed u c
    exact hs.of_eq ((awaiting_options u c).trans hperforms.options) (hstages'.trans hstages)

/-- So does a call that is logged. -/
theorem Logs.bitsAgree {s : Session} {log : List Exchange} {x : Logged} (h : Logs s log x)
    (hs : BitsAgree s) : BitsAgree x.1 := by
  cases h with
  | accepted _ _ haccepts => exact haccepts.bitsAgree hs
  | refused hsame => exact hs.of_eq hsame.options hsame.stages
  | dropped _ _ hsame => exact hs.of_eq hsame.options hsame.stages
  | @decided d stage frames t hc =>
    show BitsAgree t
    rw [hc.settled]
    exact hs.of_eq (settle_options _ _ _) (settle_fixed _ _ _).2

/-! ### One exchange -/

/-- Stage and no-reply bit of a command belong together. -/
theorem mem_stageFlags {c : Command} {stage : Stage} {b : UInt32} (hstage : c.stage = some stage)
    (hbit : c.replyBit = some b) : (stage, b) ∈ stageFlags := by
  cases c <;> cases hstage <;> cases hbit <;> simp [stageFlags]

/-- What the reply tail leaves for a command with a no-reply bit. -/
theorem answer_metered {u : Session} {c : Command} {b : UInt32} (hu : BitsAgree u)
    (hoptions : u.options.isSome) (hb : c.replyBit = some b) :
    Exchange.Metered
      { command := c, options := (u.awaiting c).options, step := u.answer c } := by
  obtain ⟨o, ho⟩ := Option.isSome_iff_exists.mp hoptions
  refine ⟨o, b, (awaiting_options u c).trans ho, hb, ?_⟩
  generalize hstep : u.answer c = step
  unfold answer at hstep
  cases hr : raised u.stages c.stage with
  | some stage =>
    obtain ⟨hstage, hsub⟩ := raised_eq_some.mp hr
    have hflag := mem_stageFlags hstage hb
    have hin : stage ∈ u.stages := by
      refine hsub.resolve_left fun h => ?_
      rw [h] at hflag
      exact absurd hflag (by simp [stageFlags])
    have hzero : o.protocol &&& b = 0 := hu o ho _ hflag hin
    simp only [hr] at hstep
    subst hstep
    exact ⟨fun _ => .inr ⟨rfl, rfl, hstage.symm, fun _ _ h => nomatch h⟩, absurd hzero⟩
  | none =>
    simp only [hr, ho, hb, promised] at hstep
    subst hstep
    refine ⟨fun hzero => .inl ⟨?_, rfl, rfl⟩, fun hne => ⟨?_, rfl, rfl⟩⟩
    · simp [hzero]
    · simp [hne]

/-- What the reply tail leaves for a command without callback and no-reply bit. -/
theorem answer_unpromised {c : Command} (u : Session) (options : Option Options)
    (hstage : c.stage = none) (hb : c.replyBit = none) :
    Exchange.Silent { command := c, options, step := u.answer c } := by
  rw [(answer_silent u hstage hb).1]
  exact ⟨rfl, rfl, rfl⟩

/-- **An accepted command gets what it was promised.** -/
theorem Accepts.promised {s t : Session} {c : Command} {step : Step} (h : Accepts s c step t)
    (hs : Valid s) (hbits : BitsAgree s) :
    Exchange.Promised { command := c, options := t.options, step } := by
  cases h with
  | negotiate _ _ hreply => exact ⟨_, rfl, Options.frameWithMacros_command hreply, rfl⟩
  | macros _ _ => exact ⟨rfl, rfl, rfl⟩
  | @perform _ u hstate hperforms =>
    have hu : BitsAgree u := hbits.of_eq hperforms.options hperforms.fixed.2
    have ho : u.options.isSome := by
      rw [hperforms.options]
      exact hs.options.mpr hstate
    cases hperforms with
    | abort => exact answer_unpromised (c := .abort) _ _ rfl rfl
    | quit => exact answer_unpromised (c := .quit) _ _ rfl rfl
    | quitNewConnection => exact answer_unpromised (c := .quitNewConnection) _ _ rfl rfl
    | endMessage hin => exact ⟨rfl, rfl, fun _ _ h => nomatch h⟩
    | _ => exact answer_metered hu ho rfl

/-! ### Decisions -/

/-- The frames of a settled decision. -/
theorem Completes.answered {s t : Session} {d : Decision} {stage : Stage} {frames : List Frame}
    (h : Completes s d stage frames t) :
    Answered frames ∧
      (stage ≠ .endMessage → ∃ final, frames = [final] ∧ final.command ∈ finalReplies) := by
  obtain ⟨-, hend, ⟨o, mods, final, -, hmods, hfinal, -, rfl⟩, -⟩ := h
  obtain ⟨parts, hparts, rfl⟩ := modificationFrames_ok hmods
  have hlast := finalFrame_final hfinal
  have hedits : ∀ f ∈ parts.flatten, f.command ∈ editReplies := by
    clear hmods
    generalize d.modifications = ms at hparts
    induction hparts with
    | nil => exact fun _ h => nomatch h
    | cons hm _ ih =>
      intro f hf
      rw [List.flatten_cons] at hf
      rcases List.mem_append.mp hf with hf | hf
      · exact frames_edit hm f hf
      · exact ih f hf
  constructor
  · refine ⟨_, final, rfl, hlast, ?_⟩
    split
    · exact fun _ h => nomatch h
    · exact hedits
  · intro hne
    have hnil : d.modifications = [] := by
      by_contra hm
      exact hne (hend hm)
    rw [hnil] at hparts
    obtain rfl := List.forall₂_nil_left_iff.mp hparts
    exact ⟨final, by simp, hlast⟩

/-- Entering the decision of a callback keeps the promise. -/
theorem promised_decide {e : Exchange} {s t : Session} {d : Decision} {stage : Stage}
    {frames : List Frame} (he : e.Promised) (hevent : e.step.event = some stage)
    (hc : Completes s d stage frames t) :
    Exchange.Promised { e with decision := some (d, frames) } := by
  obtain ⟨hanswered, hone⟩ := hc.answered
  have hloud : ¬ e.Silent := fun h => by rw [h.2.1] at hevent; exact nomatch hevent
  have hmetered : e.Metered → e.command.stage ≠ some .endMessage →
      Exchange.Metered { e with decision := some (d, frames) } := by
    rintro ⟨o, b, ho, hb, hreply, hsilent⟩ hstage
    refine ⟨o, b, ho, hb, fun hzero => ?_, fun hne => absurd (hsilent hne) hloud⟩
    rcases hreply hzero with ⟨-, hnone, -⟩ | ⟨hframes, hsome, hown, -⟩
    · rw [hnone] at hevent; exact nomatch hevent
    refine .inr ⟨hframes, hsome, hown, fun d' frames' heq => ?_⟩
    obtain ⟨-, rfl⟩ := Prod.mk.inj (Option.some.inj heq)
    refine hone fun hstage' => hstage ?_
    rw [← hown, hevent, hstage']
  obtain ⟨command, options, step, decision⟩ := e
  cases command with
  | negotiate offered =>
    obtain ⟨reply, hstep, -⟩ := he
    rw [hstep] at hevent
    exact nomatch hevent
  | endMessage =>
    obtain ⟨hframes, hevent, -⟩ := he
    refine ⟨hframes, hevent, fun d' frames' heq => ?_⟩
    obtain ⟨-, rfl⟩ := Prod.mk.inj (Option.some.inj heq)
    exact hanswered
  | macros | abort | quit | quitNewConnection => exact absurd he hloud
  | _ => exact hmetered he nofun

/-! ### Whole runs -/

/-- **Reply discipline.**  In every run each accepted command has exactly the replies that the
    negotiated word promises; a command is accepted only after the callback before it was
    decided, and the session waits for the decision of its newest exchange only. -/
theorem replies_promised {s : Session} (hs : s.Initial) (calls : List Call) :
    (∀ e ∈ history s calls, e.Promised) ∧
    (∀ e ∈ (history s calls).tail, e.waiting = none) ∧
    (Machine.after call s calls).pending = (history s calls).head?.bind Exchange.waiting := by
  have hP := logged_invariant
    (P := fun x => BitsAgree x.1 ∧ Tracks x ∧ ∀ e ∈ x.2, e.Promised) hs
    ⟨hs.bitsAgree, ⟨by obtain ⟨_, _, _, _, rfl⟩ := hs; rfl, fun _ h => nomatch h⟩,
      fun _ h => nomatch h⟩ ?_ calls
  · obtain ⟨-, ⟨hhead, htail⟩, hall⟩ := hP
    rw [loggedAfter_session] at hhead
    exact ⟨hall, htail, hhead⟩
  · rintro s log x hv ⟨hbits, htracks, hall⟩ hl
    refine ⟨hl.bitsAgree hbits, hl.tracks htracks, ?_⟩
    cases hl with
    | accepted hpending hopen haccepts =>
      intro e he
      rcases List.mem_cons.mp he with rfl | he
      · exact haccepts.promised hv hbits
      · exact hall e he
    | refused hsame => exact hall
    | dropped _ _ hsame => exact hall
    | @decided d stage frames t hc =>
      cases log with
      | nil => exact fun _ h => nomatch h
      | cons e log =>
        have hwaiting : e.waiting = some stage := htracks.1.symm.trans hc.pending
        have hevent : e.step.event = some stage := by
          unfold Exchange.waiting at hwaiting
          split at hwaiting
          · exact hwaiting
          · exact nomatch hwaiting
        intro e' he'
        rcases List.mem_cons.mp he' with rfl | he'
        · exact promised_decide (hall e List.mem_cons_self) hevent hc
        · exact hall e' (List.mem_cons_of_mem e he')

/-- A connection that the policy rejects. -/
def sampleRejected : List Call :=
  [.receive Sample.offer, .receive Sample.connect, .complete { verdict := .reject }]

/-- Two exchanges of the sample, each with what was promised. -/
theorem replies_promised_at_connect :
    (history (Sample.session [.connect]) sampleRejected).length = 2 ∧
      ∀ e ∈ history (Sample.session [.connect]) sampleRejected, e.Promised :=
  ⟨by decide +kernel, (replies_promised (Sample.session_initial [.connect]) _).1⟩

end Session

end MtaHooks
