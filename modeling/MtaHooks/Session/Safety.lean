import MtaHooks.Protocol.Checked
import MtaHooks.Protocol.Grammar
import MtaHooks.Session.Invariant

namespace MtaHooks

open FallibleState

/-!
# A session does not panic

What can panic in the source is an error of its own kind here: an option that is unwrapped, a list
that is empty, an arm that cannot be reached.  The indexes are those of `Checked`.  On a valid
session no callback meets any of them, and so none does in a run.

* `Session.receive_safe` / `Session.complete_safe` — a call on a valid session is answered, or
  refused with an error;
* `Session.run_safe` — no call of any run panics.
-/

namespace Checked

/-- An enhanced status code of the class of the reply code. -/
def enhancedCode (code : UInt16) (enhanced : Str) : Result Bool := do
  let parts := enhanced.splitOn (byte '.')
  if parts.length ≠ 3 then return false
  else do
    let first ← index parts 0
    if first ≠ decimal (code / 100).toNat then return false
    else do
      let rest ← rangeFrom parts 1
      return rest.all fun p => !p.isEmpty && p.length ≤ 3 && p.all isAsciiDigit

/-- No index of the enhanced code is out of bounds. -/
theorem enhancedCode_eq (code : UInt16) (enhanced : Str) :
    enhancedCode code enhanced = .ok (Session.enhancedCode code enhanced) := by
  unfold enhancedCode Session.enhancedCode
  dsimp only
  -- Both checks agree on the number of parts; only with three of them is one indexed.
  match enhanced.splitOn (byte '.') with
  | [] => rfl
  | [_] => rfl
  | [_, _] => rfl
  | [first, second, third] =>
    show (if first ≠ decimal (code / 100).toNat then _ else _) =
      Except.ok (decide (first = decimal (code / 100).toNat) && [second, third].all _)
    by_cases hfirst : first = decimal (code / 100).toNat
    · rw [if_neg (not_not.mpr hfirst), rangeFrom_of_le (by simp), decide_eq_true hfirst]
      rfl
    · rw [if_pos hfirst, decide_eq_false hfirst]
      rfl
  | _ :: _ :: _ :: _ :: _ => rfl

end Checked

namespace Session

/-- The error is no panic. -/
def Orderly (e : Error) : Prop := e.isPanic = false

/-! ### Frames -/

/-- The check of the state fails in order. -/
theorem require_safe (cmd : UInt8) (states : List State) : Raises Orderly (require cmd states) :=
  .bind .get fun _ => .failIf rfl

/-- The charge of a message fails in order. -/
theorem account_safe (n : ℕ) : Raises Orderly (account n) := by
  refine .bind .get fun _ => .bind (.lift fun e he => ?_) fun _ => .bind (.modify _) fun _ =>
    .failIf rfl
  rw [okOr_eq_error he]
  rfl

/-- The charge of an envelope fails in order. -/
theorem accountEnvelope_safe (fields : List Bytes) : Raises Orderly (accountEnvelope fields) := by
  induction fields with
  | nil => exact .bind .get fun _ => .failIf rfl
  | cons field fields ih =>
    refine .bind .get fun _ => .bind (.lift fun e he => ?_) fun _ => .bind (.modify _) fun _ => ih
    rw [okOr_eq_error he]
    rfl

/-- A decoded envelope has an address to remove. -/
theorem envelopeAddress_safe {fields : List Bytes} (h : Command.IsEnvelope fields) :
    Raises Orderly (lift (EnvelopeAddress.from fields) : SessionM EnvelopeAddress) := by
  -- `remove(0)` panics on the empty list, which the decoder rules out.
  obtain ⟨⟨address, parameters, -, rfl⟩, -⟩ := h
  exact .of_ok fun _ => ⟨_, rfl⟩

/-- The arm of a command fails in order. -/
theorem arm_safe (op : UInt8) {c : Command} (hc : c.Valid)
    (hnegotiate : ∀ offered, c ≠ .negotiate offered)
    (hmacros : ∀ stage values, c ≠ .macros stage values) : Raises Orderly (arm op c) := by
  have hset : ∀ (f : Session → Session) (out : Outcome),
      Raises Orderly (modify f >>= fun _ => pure out : SessionM Outcome) :=
    fun f out => .bind (.modify f) fun _ => .pure out
  cases c with
  | connect info => exact .bind (require_safe _ _) fun _ => hset _ _
  | helo helo => exact .bind (require_safe _ _) fun _ => hset _ _
  | mail fields =>
    exact .bind (accountEnvelope_safe _) fun _ => .bind (envelopeAddress_safe hc) fun _ => hset _ _
  | recipient fields =>
    exact .bind (require_safe _ _) fun _ => .bind (accountEnvelope_safe _) fun _ =>
      .bind .get fun _ => .bind (.failIf rfl) fun _ => .bind (envelopeAddress_safe hc) fun _ =>
        hset _ _
  | data => exact .bind (require_safe _ _) fun _ => hset _ _
  | header name value =>
    exact .bind (require_safe _ _) fun _ => .bind .get fun _ => .bind (.failIf rfl) fun _ =>
      .bind (account_safe _) fun _ => hset _ _
  | endHeaders =>
    exact .bind (require_safe _ _) fun _ => .bind (account_safe _) fun _ => hset _ _
  | body chunk => exact .bind (require_safe _ _) fun _ => .bind (account_safe _) fun _ => hset _ _
  | endMessage => exact .bind (require_safe _ _) fun _ => .pure _
  | abort => exact .bind (.modify _) fun _ => hset _ _
  | quitNewConnection => exact .bind (.modify _) fun _ => hset _ _
  | quit => exact .bind (.modify _) fun _ => hset _ _
  | unknown text => exact .pure _
  | negotiate offered => exact absurd rfl (hnegotiate offered)
  | macros stage values => exact absurd rfl (hmacros stage values)

/-- The prelude of a MAIL fails in order. -/
theorem mailPrelude_safe (op : UInt8) (c : Command) : Raises Orderly (mailPrelude op c) := by
  cases c with
  | mail fields =>
    exact .bind .get fun _ => .bind (.modify _) fun _ => .bind (require_safe _ _) fun _ =>
      .bind (.modify _) fun _ => .modify _
  | _ => exact .pure _

/-- A command in a negotiated session: the options that the reply tail expects are there. -/
theorem dispatch_safe {c : Command} {s t : Session} {e : Error} (hc : c.Valid)
    (hnegotiate : ∀ offered, c ≠ .negotiate offered)
    (hmacros : ∀ stage values, c ≠ .macros stage values) (hoptions : s.options.isSome)
    (h : dispatch c.opcode c s = (.error e, t)) : Orderly e := by
  rcases bind_error_iff.mp h with h | ⟨_, s₁, hmail, h⟩
  · exact mailPrelude_safe _ _ s e t h
  replace h := modify_bind_error_iff.mp h
  rcases bind_error_iff.mp h with h | ⟨out, u, harm, h⟩
  · exact arm_safe _ hc hnegotiate hmacros _ e t h
  -- The tail expects the options, and no arm takes them away.
  · obtain ⟨-, hperforms⟩ := performs_of_ok rfl hmail harm
    have hnone := finish_error h
    rw [hperforms.options] at hnone
    rw [hnone] at hoptions
    cases hoptions

/-- A name is put into a list without a panic. -/
theorem pushName_safe (list name : Str) : (MacroLists.pushName list name).Safe :=
  .ite (fun _ => .error rfl) fun _ => .ok _

/-- The requests of macros are encoded without a panic. -/
theorem frameWithMacros_safe (o : Options) (macros : MacroLists) :
    (o.frameWithMacros macros).Safe := by
  have hclass : ∀ stage, (macros.classList stage).Safe :=
    fun stage => .foldlM (fun _ _ => .foldlM (fun _ _ => pushName_safe _ _) _ _) _ _
  have hlists : macros.encode.Safe :=
    .foldlM (fun _ stage => .bind (hclass stage) fun _ => .pure _) _ _
  exact .ite (fun _ => .ok _) fun _ => .bind hlists fun _ => .pure _

/-- A negotiation fails in order. -/
theorem negotiate_safe (op : UInt8) (offered : Options) : Raises Orderly (negotiate op offered) :=
  .bind (require_safe _ _) fun _ => .bind (.failIf rfl) fun _ => .bind .get fun s =>
    .bind (.lift (frameWithMacros_safe (s.negotiated offered) s.macroLists)) fun _ =>
      .bind (.modify _) fun _ => .pure _

/-- The macros fail in order. -/
theorem defineMacros_safe (stage : UInt8) (values : List (Bytes × Bytes)) :
    Raises Orderly (defineMacros stage values) :=
  .bind (.modify _) fun _ => .bind .get fun _ => .bind (.failIf rfl) fun _ => .pure _

/-- **A frame is answered or refused**, whatever its bytes. -/
theorem receive_safe {s : Session} (hs : Valid s) (f : Frame) : Result.Safe (receive f s).1 := by
  intro e he
  rcases hr : receive f s with ⟨r, t⟩
  rw [hr] at he
  obtain rfl : r = .error e := he
  cases receive_refuses hr with
  | awaiting => rfl
  | malformed hf => exact Command.decode_safe f e hf
  | closed => rfl
  | early => rfl
  | negotiate h => exact negotiate_safe _ _ s e t h
  | macros hstate h => exact defineMacros_safe _ _ s e t h
  | dispatch hpending hc hstate hnegotiate hmacros h =>
    -- The state is not `initial`, so the options are set.
    exact dispatch_safe (Command.decode_eq_ok.mp hc).1 hnegotiate hmacros (hs.options.mpr hstate) h

/-! ### Decisions -/

/-- Strings are encoded without a panic. -/
theorem stringFrame_safe (command : UInt8) (values : List Bytes) :
    (stringFrame command values).Safe := by
  refine .bind (.foldlM (fun p value => ?_) _ _) fun _ => .pure _
  exact .ite (fun _ => .error rfl) fun _ => .ok _

/-- The check of a text does not panic. -/
theorem clean_safe (value : Str) : (clean value).Safe :=
  .ite (fun _ => .error rfl) fun _ => .ok _

/-- The check of a name does not panic. -/
theorem headerName_safe (name : Str) : (headerName name).Safe :=
  .ite (fun _ => .error rfl) fun _ => .ok _

/-- The check of a value does not panic. -/
theorem headerValue_safe (value : Str) : (headerValue value).Safe := by
  unfold headerValue
  -- The loop stops at the first byte it refuses.
  fun_induction headerValueLoop value
  all_goals first
    | exact .ok _
    | exact .error rfl
    | assumption

/-- A header is encoded without a panic. -/
theorem headerFrame_safe (command : UInt8) (i : Option UInt32) (name value : Str) :
    (Modification.headerFrame command i name value).Safe := by
  refine .bind (stringFrame_safe _ _) fun f => ?_
  cases i with
  | none => exact .pure _
  | some i => exact .pure _

/-- An address is encoded without a panic. -/
theorem envelopeFrame_safe (command : UInt8) (address : Str) (parameters : Option Str) :
    (Modification.envelopeFrame command address parameters).Safe := by
  refine .bind (clean_safe _) fun _ => .bind (.rejectIf _ rfl) fun _ => ?_
  cases parameters with
  | none => exact .bind (stringFrame_safe _ _) fun _ => .pure _
  | some p => exact .bind (clean_safe _) fun _ => .bind (stringFrame_safe _ _) fun _ => .pure _

/-- A modification is encoded or refused. -/
theorem frames_safe (ls : Bool) (m : Modification) : (m.frames ls).Safe := by
  cases m with
  | insertRawHeader i name value =>
    refine .bind (headerName_safe _) fun _ => .bind (headerValue_safe _) fun _ => .bind ?_ fun _ =>
      headerFrame_safe _ _ _ _
    exact .ite (fun _ => .ok _) fun _ => .okOr _ rfl
  | replaceBody body => exact .ite (fun _ => .ok _) fun _ => .ok _
  | addHeader name value =>
    exact .bind (headerName_safe _) fun _ => .bind (headerValue_safe _) fun _ =>
      headerFrame_safe _ _ _ _
  | insertHeader i name value =>
    exact .bind (headerName_safe _) fun _ => .bind (headerValue_safe _) fun _ =>
      headerFrame_safe _ _ _ _
  | changeHeader occurrence name value =>
    exact .bind (headerName_safe _) fun _ => .bind (headerValue_safe _) fun _ =>
      .bind (.rejectIf _ rfl) fun _ => headerFrame_safe _ _ _ _
  | changeFrom address parameters => exact envelopeFrame_safe _ _ _
  | addRecipient address parameters => exact envelopeFrame_safe _ _ _
  | deleteRecipient s =>
    exact .bind (clean_safe _) fun _ => .bind (stringFrame_safe _ _) fun _ => .pure _
  | quarantine s =>
    exact .bind (clean_safe _) fun _ => .bind (stringFrame_safe _ _) fun _ => .pure _

/-- The budget of the frames does not panic. -/
theorem budgetFrames_safe (limits : Limits) (fs : List Frame) (acc : List Frame × ℕ) :
    (budgetFrames limits fs acc).Safe := by
  induction fs generalizing acc with
  | nil => exact .ok _
  | cons f fs ih =>
    refine .ite (fun _ => .error rfl) fun _ => .bind (.okOr _ rfl) fun _ => ?_
    exact .ite (fun _ => .error rfl) fun _ => ih _

/-- The modifications are encoded without a panic. -/
theorem modificationFrames_safe (limits : Limits) (actions : UInt32) (ls : Bool)
    (ms : List Modification) : (modificationFrames limits actions ls ms).Safe := by
  refine .bind (.foldlM (fun acc m => ?_) _ _) fun _ => .pure _
  have hsize : (m.payloadBytes ls).Safe := by
    refine .foldlM (fun _ _ => ?_) _ _
    exact .okOr _ rfl
  refine .ite (fun _ => .error rfl) fun _ => .bind hsize fun _ => .bind (.okOr _ rfl) fun _ => ?_
  exact .ite (fun _ => .error rfl) fun _ => .bind (frames_safe _ _) fun _ => budgetFrames_safe _ _ _

/-- The verdict is encoded without a panic. -/
theorem finalFrame_safe (v : Verdict) : (finalFrame v).Safe := by
  cases v with
  | reply code enhanced message =>
    refine .bind (.rejectIf _ rfl) fun _ => .bind (clean_safe _) fun _ => .bind ?_ fun _ =>
      stringFrame_safe _ _
    cases enhanced with
    | none => exact .ok _
    | some enhanced => exact .ite (fun _ => .ok _) fun _ => .error rfl
  | _ => exact .ok _

/-- **A decision is carried out or refused**: the options that it expects are there. -/
theorem complete_safe {s : Session} (hs : Valid s) (d : Decision) :
    Result.Safe (complete d s).1 := by
  intro e he
  rcases hr : complete d s with ⟨r, t⟩
  rw [hr] at he
  obtain rfl : r = .error e := he
  cases complete_declines hr with
  | idle => rfl
  | @unnegotiated stage hpending hnone =>
    -- A pending callback is one of a negotiated session.
    have hstate := hs.awaits stage hpending
    have hopen : s.state ≠ .initial := by
      rw [hstate]
      cases stage <;> simp [Stage.awaits]
    have hoptions := hs.options.mpr hopen
    rw [hnone] at hoptions
    cases hoptions
  | early => rfl
  | many => rfl
  | modifications ho h => exact modificationFrames_safe _ _ _ _ e h
  | verdict h => exact finalFrame_safe _ e h
  | long => rfl

end Session

/-! ### Runs -/

/-- The answer is no panic. -/
def Answer.Safe : Answer → Prop
  | .step r => Result.Safe r
  | .frames r => Result.Safe r

namespace Session

/-- **No call of a valid session panics.** -/
theorem call_safe {s : Session} (hs : Valid s) (i : Call) : (s.call i).1.Safe := by
  cases i with
  | receive f => exact receive_safe hs f
  | complete d => exact complete_safe hs d

/-- **No call of a run panics.** -/
theorem run_safe {s : Session} (hs : s.Reachable) (calls : List Call) :
    ∀ a ∈ (Machine.run call s calls).1, a.Safe := by
  induction calls generalizing s with
  | nil =>
    intro a ha
    cases ha
  | cons i calls ih =>
    intro a ha
    rcases List.mem_cons.mp ha with rfl | ha
    · exact call_safe hs.valid i
    · exact ih (hs.next i) a ha

end Session

end MtaHooks
