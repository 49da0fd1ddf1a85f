import MtaHooks.Protocol.Grammar
import MtaHooks.Session.Budgets

namespace MtaHooks

open FallibleState

/-!
# Memory bounds

In a run without refused calls every counter is exact or an upper bound of what it counts, so
what a session holds stays within its limits.

* `Advances` — what a successful call can do to session and history;
* `memory_bounds` — the bounds of every such run.
-/

/-- The call succeeded. -/
def Answer.succeeded : Answer → Bool
  | .step (.ok _) | .frames (.ok _) => true
  | _ => false

/-- The bytes of the stored envelope, each string with a terminator. -/
def Message.envelopeStored (m : Message) : ℕ :=
  ((m.sender.toList ++ m.recipients).map fun a =>
    Session.envelopeCost (a.address :: a.parameters)).sum

/-- The RCPT commands accepted since the last MAIL. -/
def attempts (log : List Exchange) : ℕ :=
  (log.takeWhile fun e => e.command.stage ≠ some .mail).countP fun e =>
    e.command.stage = some .recipient

/-- A further exchange in the count of attempts. -/
theorem attempts_cons (e : Exchange) (log : List Exchange) :
    attempts (e :: log) =
      if e.command.stage = some .mail then 0
      else attempts log + if e.command.stage = some .recipient then 1 else 0 := by
  unfold attempts
  by_cases hmail : e.command.stage = some .mail
  · simp [hmail]
  · simp [hmail, List.countP_cons]

/-- A MAIL starts the count again. -/
theorem attempts_mail {e : Exchange} (h : e.command.stage = some .mail) (log : List Exchange) :
    attempts (e :: log) = 0 := by
  rw [attempts_cons, if_pos h]

/-- A RCPT is an attempt. -/
theorem attempts_recipient {e : Exchange} (h : e.command.stage = some .recipient)
    (log : List Exchange) : attempts (e :: log) = attempts log + 1 := by
  rw [attempts_cons, h]
  rfl

/-- No other command is. -/
theorem attempts_other {e : Exchange} (hmail : e.command.stage ≠ some .mail)
    (hrcpt : e.command.stage ≠ some .recipient) (log : List Exchange) :
    attempts (e :: log) = attempts log := by
  rw [attempts_cons, if_neg hmail, if_neg hrcpt, Nat.add_zero]

/-- A command without a stage is none. -/
theorem attempts_silent {e : Exchange} (h : e.command.stage = none) (log : List Exchange) :
    attempts (e :: log) = attempts log :=
  attempts_other (by rw [h]; exact nofun) (by rw [h]; exact nofun) log

/-- A decision does not change which commands were accepted. -/
theorem attempts_decide (d : Decision) (frames : List Frame) (log : List Exchange) :
    attempts (Exchange.decide d frames log) = attempts log := by
  cases log with
  | nil => rfl
  | cons e log =>
    show attempts ({ e with decision := _ } :: log) = _
    rw [attempts_cons, attempts_cons]

namespace Session

/-! ### Successful calls -/

/-- What a successful call can do to session and history. -/
inductive Advances (s : Session) (log : List Exchange) : Logged → Prop
  | accepted {c : Command} {step : Step} {t : Session} (hvalid : c.Valid)
      (hpending : s.pending = none) (haccepts : Accepts s c step t) :
    Advances s log (t, { command := c, options := t.options, step } :: log)
  | decided {d : Decision} {stage : Stage} {frames : List Frame} {t : Session}
      (hcompletes : Completes s d stage frames t) :
    Advances s log (t, Exchange.decide d frames log)

/-- A call that succeeds advances the session. -/
theorem advances_of_succeeded {s : Session} (log : List Exchange) {i : Call}
    (h : (s.call i).1.succeeded = true) : Advances s log (loggedCall (s, log) i).2 := by
  cases i with
  | receive f =>
    show Advances s log ((receive f s).2, enter log (Command.decode f) (receive f s))
    change Answer.succeeded (.step (receive f s).1) = true at h
    rcases hr : receive f s with ⟨r, t⟩
    rw [hr] at h
    cases r with
    | error e => exact nomatch h
    | ok step =>
      obtain ⟨c, hc, hpending, -, ha⟩ := receive_ok hr
      rw [hc]
      exact .accepted (Command.decode_eq_ok.mp hc).1 hpending ha
  | complete d =>
    show Advances s log ((complete d s).2, close log d (complete d s))
    change Answer.succeeded (.frames (complete d s).1) = true at h
    rcases hr : complete d s with ⟨r, t⟩
    rw [hr] at h
    cases r with
    | error e => exact nomatch h
    | ok frames =>
      obtain ⟨stage, hc⟩ := complete_ok hr
      exact .decided hc

/-- The history does not disturb the answers. -/
theorem loggedCall_answers (s : Session) (log : List Exchange) (calls : List Call) :
    (Machine.run loggedCall (s, log) calls).1 = (Machine.run call s calls).1 := by
  -- `loggedCall` is `call` with a history beside it, which no answer reads.
  have hR : ∀ (x : Logged) (t : Session) (i : Call), x.1 = t →
      (loggedCall x i).1 = (call t i).1 ∧ (loggedCall x i).2.1 = (call t i).2 := by
    rintro x t i rfl
    exact ⟨rfl, rfl⟩
  exact (Machine.run_lockstep (R := fun (x : Logged) t => x.1 = t) hR calls rfl).1

/-! ### The envelope -/

/-- A further recipient takes its own room. -/
theorem envelopeStored_recipient (m : Message) (a : EnvelopeAddress) (n : ℕ) :
    Message.envelopeStored { m with recipients := m.recipients ++ [a], envelopeBytes := n } =
      m.envelopeStored + envelopeCost (a.address :: a.parameters) := by
  simp [Message.envelopeStored, Nat.add_assoc]

/-- A recipient that is dropped gives back its room. -/
theorem envelopeStored_dropLast (m : Message) :
    Message.envelopeStored { m with recipients := m.recipients.dropLast } ≤ m.envelopeStored := by
  unfold Message.envelopeStored
  refine List.Sublist.sum_le_sum ((List.Sublist.append (List.Sublist.refl _) ?_).map _) ?_
  · exact List.dropLast_sublist _
  · exact fun _ _ => Nat.zero_le _

/-- The envelope is charged before it is stored. -/
def EnvelopeFits (s : Session) : Prop :=
  s.message.envelopeStored ≤ s.message.envelopeBytes ∧
    s.message.envelopeBytes ≤ s.limits.envelopeBytes

/-- A command keeps the envelope within what it was charged. -/
theorem Performs.envelope {s u : Session} {c : Command} (h : Performs s c u)
    (hs : EnvelopeFits s) : EnvelopeFits u := by
  obtain ⟨hstored, hfits⟩ := hs
  cases h with
  -- MAIL empties the message, so its own fields are all that is stored.
  | @mail address parameters hstate hbudget =>
    refine ⟨?_, hbudget⟩
    show (List.map _ [_]).sum ≤ _
    simp
  -- RCPT adds the cost of one address on both sides.
  | @recipient address parameters hstate hbudget hcount =>
    refine ⟨?_, hbudget⟩
    show Message.envelopeStored { s.message with
      recipients := s.message.recipients ++ [⟨address, parameters⟩], envelopeBytes := _ } ≤ _
    rw [envelopeStored_recipient]
    exact Nat.add_le_add_right hstored _
  | abort => exact ⟨le_rfl, Nat.zero_le _⟩
  | quit => exact ⟨le_rfl, Nat.zero_le _⟩
  | quitNewConnection => exact ⟨le_rfl, Nat.zero_le _⟩
  | connect => exact ⟨hstored, hfits⟩
  | helo => exact ⟨hstored, hfits⟩
  | data => exact ⟨hstored, hfits⟩
  | header => exact ⟨hstored, hfits⟩
  | endHeaders => exact ⟨hstored, hfits⟩
  | body => exact ⟨hstored, hfits⟩
  | endMessage => exact ⟨hstored, hfits⟩
  | unknown => exact ⟨hstored, hfits⟩

/-- The recipients stay within their limit. -/
theorem Performs.recipients_le {s u : Session} {c : Command} (h : Performs s c u)
    (hs : s.message.recipients.length ≤ s.limits.recipients) :
    u.message.recipients.length ≤ u.limits.recipients := by
  cases h with
  | recipient hstate hbudget hcount =>
    show (s.message.recipients ++ [_]).length ≤ s.limits.recipients
    rw [List.length_append, List.length_singleton]
    exact hcount
  | mail => exact Nat.zero_le _
  | abort => exact Nat.zero_le _
  | quit => exact Nat.zero_le _
  | quitNewConnection => exact Nat.zero_le _
  | _ => exact hs

/-- Every RCPT of the transaction was charged at least two bytes. -/
def Counts (s : Session) (log : List Exchange) : Prop :=
  2 * attempts log ≤ s.limits.envelopeBytes ∧
    (s.state.hasSender = true → 2 * attempts log ≤ s.message.envelopeBytes)

/-- An address costs two bytes at least. -/
theorem two_le_envelopeCost {address : Bytes} (h : address ≠ []) (parameters : List Bytes) :
    2 ≤ envelopeCost (address :: parameters) := by
  have hlength := List.length_pos_iff.mpr h
  simp only [envelopeCost, List.map_cons, List.sum_cons]
  omega

/-- An accepted RCPT is paid for, and MAIL starts counting anew. -/
theorem Performs.counts {s u : Session} {c : Command} (h : Performs s c u) (hu : Valid u)
    (hc : c.Valid) {log : List Exchange} (hs : Counts s log) (options : Option Options)
    (step : Step) : Counts u ({ command := c, options, step } :: log) := by
  obtain ⟨hlimit, hcharged⟩ := hs
  by_cases hmail : c.stage = some .mail
  · unfold Counts
    rw [attempts_mail hmail]
    exact ⟨Nat.zero_le _, fun _ => Nat.zero_le _⟩
  by_cases hrcpt : c.stage = some .recipient
  · unfold Counts
    rw [attempts_recipient hrcpt]
    cases h with
    | @recipient address parameters hstate hbudget hcount =>
      -- A decoded RCPT has an address, of one byte at least and a terminator.
      obtain ⟨⟨address', parameters', hne, heq⟩, -⟩ := hc
      obtain ⟨rfl, rfl⟩ := List.cons.inj heq
      have hcost := two_le_envelopeCost hne parameters
      have hsender : s.state.hasSender = true := by
        rcases hstate with h | h <;> rw [h] <;> rfl
      have hbefore := hcharged hsender
      dsimp only
      exact ⟨by show _ ≤ s.limits.envelopeBytes; omega, fun _ => by omega⟩
    | _ => exact nomatch hrcpt
  unfold Counts
  rw [attempts_other hmail hrcpt]
  cases h with
  | mail => exact absurd rfl hmail
  | recipient => exact absurd rfl hrcpt
  | connect => exact ⟨hlimit, fun h => nomatch h⟩
  | helo => exact ⟨hlimit, hcharged⟩
  | data hstate => exact ⟨hlimit, fun _ => hcharged (by rw [hstate]; rfl)⟩
  -- A header leaves `data` for `headers`, and both states have a sender.
  | header hstate hcount hbudget =>
    refine ⟨hlimit, fun _ => hcharged ?_⟩
    rcases hstate with h | h <;> rw [h] <;> rfl
  | endHeaders hstate hbudget =>
    refine ⟨hlimit, fun _ => hcharged ?_⟩
    rcases hstate with h | h <;> rw [h] <;> rfl
  | body => exact ⟨hlimit, hcharged⟩
  | endMessage => exact ⟨hlimit, hcharged⟩
  | unknown => exact ⟨hlimit, hcharged⟩
  -- what ends the transaction leaves no sender, so the session is in no state that has one
  | abort => exact ⟨hlimit, fun h => nomatch hu.sender.trans h⟩
  | quit => exact ⟨hlimit, fun h => nomatch hu.sender.trans h⟩
  | quitNewConnection => exact ⟨hlimit, fun h => nomatch hu.sender.trans h⟩

/-! ### The bounds -/

/-- What a session holds, its counters and its limits agree. -/
structure Bounded (x : Logged) : Prop where
  valid : Valid x.1
  headers : x.1.message.headers.length ≤ x.1.limits.headers
  recipients : x.1.message.recipients.length ≤ x.1.limits.recipients
  counted : x.1.stored = x.1.message.bytes
  message : x.1.message.bytes ≤ x.1.limits.messageBytes
  envelope : EnvelopeFits x.1
  macros : x.1.macroBytes ≤ x.1.limits.macroBytes
  counts : Counts x.1 x.2

/-- The message counter after the arm of a command. -/
theorem Performs.bounded {s u : Session} {c : Command} (h : Performs s c u) (hvalid : c.Valid)
    (hpending : s.pending = none) (hinit : s.state ≠ .initial) {log : List Exchange}
    (hs : Bounded (s, log)) (options : Option Options) (step : Step) :
    Bounded (u, { command := c, options, step } :: log) := by
  have hu := h.valid hs.valid hpending hinit
  have hlimits := h.fixed.1
  refine ⟨hu, h.headers_le hs.headers, h.recipients_le hs.recipients, ?_, ?_,
    h.envelope hs.envelope, ?_, h.counts hu hvalid hs.counts options step⟩
  -- Both start from zero, or both grow by the same number.
  · have hcounted := hs.counted
    dsimp only at hcounted ⊢
    rcases h.charges hs.valid with ⟨hzero, hbytes⟩ | ⟨n, hstored, hbytes, -⟩
    · rw [hzero, hbytes]
    · rw [hstored, hbytes, hcounted]
  · have hmessage := hs.message
    dsimp only at hmessage ⊢
    rw [hlimits]
    rcases h.charges hs.valid with ⟨-, hbytes⟩ | ⟨n, -, hbytes, rfl | hbudget⟩
    · rw [hbytes]
      exact Nat.zero_le _
    · rw [hbytes]
      exact hmessage
    · exact hbudget
  · show u.macroBytes ≤ u.limits.macroBytes
    rw [hlimits]
    exact h.macros_le.trans hs.macros

/-- An accepted command keeps a session within its limits. -/
theorem Accepts.bounded {s t : Session} {c : Command} {step : Step} (h : Accepts s c step t)
    (hvalid : c.Valid) (hpending : s.pending = none) {log : List Exchange}
    (hs : Bounded (s, log)) (options : Option Options) :
    Bounded (t, { command := c, options, step } :: log) := by
  have ht := h.valid hs.valid hpending
  obtain ⟨hv, hheaders, hrecipients, hcounted, hmessage, henvelope, hmacros, hlimit, hcharged⟩ := hs
  cases h with
  -- Before negotiation nothing is stored, and the state is not `body` before nor after.
  | @negotiate offered reply hstate hversion hreply =>
    refine ⟨ht, hheaders, hrecipients, ?_, hmessage, henvelope, hmacros, ?_⟩
    · have hbody : s.state ≠ .body := by rw [hstate]; decide
      dsimp only at hcounted ⊢
      rw [← hcounted]
      simp only [stored, hbody, if_false]
      rfl
    · unfold Counts
      rw [attempts_silent]
      · refine ⟨hlimit, ?_⟩
        intro h
        cases h
      · rfl
  | macros hstate hbudget =>
    refine ⟨ht, hheaders, hrecipients, hcounted, hmessage, henvelope, hbudget, ?_⟩
    unfold Counts
    rw [attempts_silent]
    · exact ⟨hlimit, hcharged⟩
    · rfl
  | @perform _ u hstate hperforms =>
    -- Waiting for a decision changes the pending callback only.
    have hu := hperforms.bounded hvalid hpending hstate
      ⟨hv, hheaders, hrecipients, hcounted, hmessage, henvelope, hmacros, hlimit, hcharged⟩
      options (u.answer c)
    unfold awaiting at ht ⊢
    split at ht
    · exact ⟨ht, hu.headers, hu.recipients, hu.counted, hu.message, hu.envelope, hu.macros,
        hu.counts⟩
    · exact hu

/-- A decision keeps the macro batches or drops some. -/
theorem settle_macroBytes (stage : Stage) (v : Verdict) (s : Session) :
    (settle stage v s).macroBytes ≤ s.macroBytes := by
  have hreset := resetMessage_macroBytes s
  unfold settle
  dsimp only
  split
  · exact hreset
  split
  · exact le_rfl
  split
  · exact le_rfl
  split
  · exact hreset
  · exact le_rfl

/-- A decision keeps a session within its limits. -/
theorem settle_bounded {s : Session} {stage : Stage} (v : Verdict)
    (hpending : s.pending = some stage) {log : List Exchange} (hs : Bounded (s, log)) :
    Bounded (settle stage v s, log) := by
  have hstate := hs.valid.awaits stage hpending
  obtain ⟨hv, hheaders, hrecipients, hcounted, hmessage, ⟨hstored, hfits⟩, hmacros, hlimit,
    hcharged⟩ := hs
  dsimp only at hcounted hmessage
  have hlimits := (settle_fixed stage v s).1
  -- Headers, recipients, counter, message, envelope, macros and the charged recipients:
  -- each is kept, emptied, or shorter by the refused recipient.
  refine ⟨settle_valid v hpending hv, ?_, ?_, ?_, ?_, ?_, ?_, ?_⟩
  · dsimp only
    rw [hlimits]
    unfold settle
    dsimp only
    split_ifs
    all_goals first | exact hheaders | exact Nat.zero_le _
  · dsimp only
    rw [hlimits]
    unfold settle
    dsimp only
    split_ifs
    all_goals first
      | exact hrecipients
      | exact Nat.zero_le _
      | exact (List.dropLast_sublist _).length_le.trans hrecipients
  · rcases settle_charges v hpending hv with ⟨hzero, hbytes⟩ | ⟨hsame, hbytes⟩
    · exact hzero.trans hbytes.symm
    · exact hsame.trans (hcounted.trans hbytes.symm)
  · dsimp only
    rw [hlimits]
    rcases settle_charges v hpending hv with ⟨-, hbytes⟩ | ⟨-, hbytes⟩
    · rw [hbytes]
      exact Nat.zero_le _
    · rw [hbytes]
      exact hmessage
  · unfold EnvelopeFits
    dsimp only
    rw [hlimits]
    unfold settle
    dsimp only
    split_ifs
    all_goals first
      | exact ⟨hstored, hfits⟩
      | exact ⟨le_rfl, Nat.zero_le _⟩
      | exact ⟨(envelopeStored_dropLast _).trans hstored, hfits⟩
  · dsimp only
    rw [hlimits]
    exact (settle_macroBytes stage v s).trans hmacros
  · unfold Counts
    dsimp only
    rw [hlimits]
    refine ⟨hlimit, ?_⟩
    unfold settle
    dsimp only
    by_cases hshut : v = .shutdown
    · rw [if_pos hshut]
      exact fun h => nomatch h
    rw [if_neg hshut]
    by_cases hrcpt : rejected v ∧ stage = .recipient
    · rw [if_pos hrcpt]
      -- The refused recipient is dropped, its charge is not.
      exact fun _ => hcharged (by dsimp only; rw [hstate, hrcpt.2]; rfl)
    rw [if_neg hrcpt]
    by_cases hstop : rejected v ∧ (stage = .connect ∨ stage = .helo)
    · rw [if_pos hstop]
      exact fun h => nomatch h
    rw [if_neg hstop]
    split
    · exact fun h => nomatch h
    · exact hcharged

/-- A call that succeeds keeps a session within its limits. -/
theorem Advances.bounded {s : Session} {log : List Exchange} {x : Logged}
    (h : Advances s log x) (hs : Bounded (s, log)) : Bounded x := by
  cases h with
  | @accepted c step t hvalid hpending haccepts =>
    exact haccepts.bounded hvalid hpending hs t.options
  -- The history gets the decision, which does not change what it counts.
  | @decided d stage frames t hcompletes =>
    have hsettled := settle_bounded d.verdict hcompletes.pending hs
    rw [← hcompletes.settled] at hsettled
    refine { hsettled with counts := ?_ }
    unfold Counts
    rw [attempts_decide]
    exact hsettled.counts

/-- The fixed limits of a run. -/
theorem Initial.bounded {s : Session} (h : s.Initial) : Bounded (s, []) := by
  have hvalid := h.valid
  obtain ⟨limits, stages, wantedActions, macroLists, rfl⟩ := h
  have hmacros : Batches.empty.size + Batches.empty.size ≤ limits.macroBytes := by
    rw [Batches.size_empty]
    exact Nat.zero_le _
  exact ⟨hvalid, Nat.zero_le _, Nat.zero_le _, rfl, Nat.zero_le _, ⟨le_rfl, Nat.zero_le _⟩, hmacros,
    Nat.zero_le _, fun h => nomatch h⟩

/-- A run without refused calls keeps what is stored, its counters and its limits in agreement. -/
theorem loggedAfter_bounded {s : Session} (hs : s.Initial) {calls : List Call}
    (hok : ∀ a ∈ (Machine.run call s calls).1, a.succeeded = true) :
    Bounded (loggedAfter s calls) := by
  rw [← loggedCall_answers s []] at hok
  refine Machine.run_invariant_of calls hs.bounded hok ?_
  -- Only calls that succeeded: a refused RCPT may be charged without being stored.
  rintro ⟨t, log⟩ i ht hi
  exact (advances_of_succeeded log hi).bounded ht

/-- **Memory bounds.**  In every state of a run without refused calls: headers and recipients are
    within their limits; the message counter is the size of the stored message and within its
    limit, so the raw message at EOM is; the stored envelope and the macro batches are within
    theirs; and the RCPT commands accepted since the last MAIL number at most half the envelope
    limit. -/
theorem memory_bounds {s : Session} (hs : s.Initial) {calls : List Call}
    (hok : ∀ a ∈ (Machine.run call s calls).1, a.succeeded = true) :
    let t := Machine.after call s calls
    t.message.headers.length ≤ s.limits.headers ∧
    t.message.recipients.length ≤ s.limits.recipients ∧
    ((t.message.headers.map fun h => h.1.length + h.2.length + 4).sum +
        (if t.state = .body then 2 else 0) + t.message.body.length = t.message.bytes ∧
      t.message.bytes ≤ s.limits.messageBytes) ∧
    (t.pending = some .endMessage → t.rawMessage.length ≤ s.limits.messageBytes) ∧
    t.message.envelopeStored ≤ s.limits.envelopeBytes ∧
    t.macros.size + t.pendingMacros.size ≤ s.limits.macroBytes ∧
    attempts (history s calls) ≤ s.limits.envelopeBytes / 2 := by
  -- The history is erased again: the statement speaks of the plain run.
  have hbounded := loggedAfter_bounded hs hok
  have hreachable : Reachable s := Machine.Reachable.init hs
  have hlimits := (hreachable.after calls).2
  obtain ⟨hv, hheaders, hrecipients, hcounted, hmessage, ⟨hstored, hfits⟩, hmacros, hlimit, -⟩ :=
    hbounded
  rw [loggedAfter_session] at hv hheaders hrecipients hcounted hmessage hstored hfits hmacros hlimit
  rw [hlimits] at hheaders hrecipients hmessage hfits hmacros hlimit
  refine ⟨hheaders, hrecipients, ⟨hcounted, hmessage⟩, fun hpending => ?_, hstored.trans hfits,
    hmacros, ?_⟩
  -- At EOM the state is `body`, where the raw message takes no more than what is stored.
  · have hraw := length_rawMessage_le (hv.awaits _ hpending)
    omega
  · show attempts (loggedAfter s calls).2 ≤ _
    omega

/-- A message with one recipient and one header, up to its EOM callback. -/
def messageCalls : List Call :=
  [Sample.offer, Sample.connect, Sample.mail, Sample.rcpt "<b>", Sample.data,
    Sample.header "A" "1", Sample.endHeaders, Sample.endMessage].map .receive

/-- A message of the sample is within the default limits. -/
theorem memory_bounds_at_message :
    (Machine.after call (Sample.session []) messageCalls).rawMessage.length ≤ 26214400 ∧
      attempts (history (Sample.session []) messageCalls) ≤ 524288 :=
  have hok : ∀ a ∈ (Machine.run call (Sample.session []) messageCalls).1, a.succeeded = true := by
    decide +kernel
  have hbounds := memory_bounds (Sample.session_initial []) hok
  ⟨hbounds.2.2.2.1 (by decide +kernel), hbounds.2.2.2.2.2.2⟩

end Session

end MtaHooks
