import MtaHooks.Session.Refusals
import MtaHooks.Lib.Runs

namespace MtaHooks

open FallibleState

/-!
# The session as a machine

The driver uses a session through two methods only.  A `Call` is a call of one of them and
an `Answer` is what it returns, so a connection is a run of `Session.call`, failing calls
included.

* `Session.Reachable` — the states of all runs from `Session::new`, with any macro lists
  requested;
* `call_preserves` — the invariant rule of the session: what accepted frames, resets and
  settled decisions preserve, and what only the view decides, every call preserves.
-/

/-- A call of the driver. -/
inductive Call
  | receive (frame : Frame)
  | complete (decision : Decision)
  deriving DecidableEq

/-- What a call returns. -/
inductive Answer
  | step (result : Result Step)
  | frames (result : Result (List Frame))
  deriving DecidableEq

namespace Session

/-- Run one call. -/
def call (s : Session) : Call → Answer × Session
  | .receive f => (.step (receive f s).1, (receive f s).2)
  | .complete d => (.frames (complete d s).1, (complete d s).2)

/-- A session no frame was received in. -/
def Initial (s : Session) : Prop :=
  ∃ limits stages wantedActions macroLists,
    s = (new limits stages wantedActions).requestMacros macroLists

/-- A session of some run. -/
def Reachable (s : Session) : Prop := Machine.Reachable call Initial s

/-! ### The view decides -/

namespace SameView

variable {s t : Session}

/-- It is one state. -/
theorem state (h : SameView s t) : t.state = s.state := (congrArg Session.state h).symm

/-- They are the same options. -/
theorem options (h : SameView s t) : t.options = s.options := (congrArg Session.options h).symm

/-- It is one connection. -/
theorem connection (h : SameView s t) : t.connection = s.connection :=
  (congrArg Session.connection h).symm

/-- The same callback is pending. -/
theorem pending (h : SameView s t) : t.pending = s.pending := (congrArg Session.pending h).symm

/-- They are the same stages. -/
theorem stages (h : SameView s t) : t.stages = s.stages := (congrArg Session.stages h).symm

/-- They are the same limits. -/
theorem limits (h : SameView s t) : t.limits = s.limits := (congrArg Session.limits h).symm

/-- It is one sender. -/
theorem sender (h : SameView s t) : t.message.sender = s.message.sender :=
  (congrArg (·.message.sender) h).symm

/-- They are the same recipients. -/
theorem recipients (h : SameView s t) : t.message.recipients = s.message.recipients :=
  (congrArg (·.message.recipients) h).symm

/-- They are the same headers. -/
theorem headers (h : SameView s t) : t.message.headers = s.message.headers :=
  (congrArg (·.message.headers) h).symm

/-- It is one body. -/
theorem body (h : SameView s t) : t.message.body = s.message.body :=
  (congrArg (·.message.body) h).symm

end SameView

/-- **Invariant rule of the session**, for properties that also depend on what was charged for
    the message. -/
theorem call_preserves_charged {P : Session → Prop}
    (hoptions : ∀ {s}, P s → s.state ≠ .initial → s.options.isSome)
    (hcharges : ∀ {s t}, Charges s t → P s → P t)
    (hreset : ∀ {s}, s.state = .ready → P s → P s.resetMessage)
    (haccept : ∀ {s c step t}, s.pending = none → s.state ≠ .closed → Accepts s c step t →
      P s → P t)
    (hsettle : ∀ {s stage} (v : Verdict), s.pending = some stage → P s → P (settle stage v s))
    {s : Session} (hs : P s) (i : Call) : P (s.call i).2 := by
  cases i with
  | receive f =>
    show P (receive f s).2
    rcases hr : receive f s with ⟨r, t⟩
    cases r with
    | ok step =>
      obtain ⟨c, -, hpending, hopen, hc⟩ := receive_ok hr
      exact haccept hpending hopen hc hs
    | error e =>
      rcases receive_charges (hoptions hs) hr with hsame | ⟨-, hready, hsame⟩
      · exact hcharges hsame hs
      · exact hcharges hsame (hreset hready hs)
  | complete d =>
    show P (complete d s).2
    rcases hr : complete d s with ⟨r, t⟩
    cases r with
    | ok frames =>
      obtain ⟨stage, hc⟩ := complete_ok hr
      show P t
      rw [hc.settled]
      exact hsettle d.verdict hc.pending hs
    | error e =>
      show P t
      rw [complete_error hr]
      exact hs

/-- **Invariant rule of the session.** -/
theorem call_preserves {P : Session → Prop}
    (hoptions : ∀ {s}, P s → s.state ≠ .initial → s.options.isSome)
    (hview : ∀ {s t}, SameView s t → P s → P t)
    (hreset : ∀ {s}, s.state = .ready → P s → P s.resetMessage)
    (haccept : ∀ {s c step t}, s.pending = none → s.state ≠ .closed → Accepts s c step t →
      P s → P t)
    (hsettle : ∀ {s stage} (v : Verdict), s.pending = some stage → P s → P (settle stage v s))
    {s : Session} (hs : P s) (i : Call) : P (s.call i).2 :=
  call_preserves_charged hoptions (fun h => hview h.same) hreset haccept hsettle hs i

end Session

/-! ### A sample connection

Frames of a small SMTP session, for theorems about fixed runs. -/

namespace Sample

/-- The MTA offers every action and no protocol step to leave out. -/
def offer : Frame := ⟨byte 'O', toBeBytes 6 ++ toBeBytes supportedActions ++ toBeBytes 0⟩

/-- A CONNECT without an address. -/
def connect : Frame := ⟨byte 'C', ascii "mx" ++ [0, byte 'U']⟩

/-- A MAIL. -/
def mail : Frame := ⟨byte 'M', ascii "<a>" ++ [0]⟩

/-- A RCPT. -/
def rcpt (address : String) : Frame := ⟨byte 'R', ascii address ++ [0]⟩

/-- A DATA. -/
def data : Frame := .empty (byte 'T')

/-- A header. -/
def header (name value : String) : Frame := ⟨byte 'L', ascii name ++ [0] ++ ascii value ++ [0]⟩

/-- The end of the headers. -/
def endHeaders : Frame := .empty (byte 'N')

/-- The end of the message. -/
def endMessage : Frame := .empty (byte 'E')

/-- An ABORT. -/
def abort : Frame := .empty (byte 'A')

/-- A command that the MTA does not know. -/
def unknown : Frame := ⟨byte 'U', ascii "XYZ" ++ [0]⟩

/-- A session with every action, subscribed to the given stages. -/
def session (stages : List Stage) : Session := .new {} stages supportedActions

/-- The session of the sample is a new one. -/
theorem session_initial (stages : List Stage) : (session stages).Initial :=
  ⟨{}, stages, supportedActions, [], rfl⟩

/-- The sample session after the frames. -/
def received (stages : List Stage) (frames : List Frame) : Session :=
  Machine.after Session.call (session stages) (frames.map .receive)

/-- The session after some frames is reachable. -/
theorem received_reachable (stages : List Stage) (frames : List Frame) :
    (received stages frames).Reachable :=
  ⟨_, _, session_initial stages, rfl⟩

end Sample

end MtaHooks
