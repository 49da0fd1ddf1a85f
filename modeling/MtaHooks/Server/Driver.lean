import MtaHooks.Session.Invariant

namespace MtaHooks

open FallibleState

/-!
# The driver of one connection

`handle_connection` as a machine over the events of its environment: what is read, when the
policy answers, when the progress ticker fires, and how every single write ends.  An event
that cannot happen in a phase has no next state.  Time is in the events: a missed policy
deadline, a read or a write that timed out.

`resolve` is the composition of a reply from the outcome of the policy; the fallback keeps
the error of the outcome out of the wire.

The write of a keepalive is one event, at its end.  In the source it takes up to `write_timeout`,
and nothing polls the policy and its deadline until it is over: at this layer, where the policy is
part of the environment, that only delays what comes next.  Where the policy is a part of the
model the write has a beginning as well.  A connection that is aborted in the middle of such a
write is aborted before it here, so that what it had sent of the keepalive, and that the source
has counted it by then, is left out.
-/

/-- The settings `handle_connection` looks at. -/
structure Config where
  limits : Limits := {}
  /-- Progress notifications are sent while a callback is pending. -/
  progressInterval : Bool := true
  failOpen : Bool := false

/-- What a policy announces. -/
structure Policy where
  stages : List Stage
  actions : UInt32
  macros : MacroLists

/-- How one `write_frame` ends. -/
inductive Write
  | done
  /-- Failed or timed out after a strict part of the frame. -/
  | torn (sent : ℕ) (error : Error)

/-- The events of the environment. -/
inductive Event
  | stop
  | endOfInput
  | readFailed (error : Error)
  /-- A frame within the limit is read; a longer one fails the read. -/
  | frame (frame : Frame)
  /-- The progress ticker fires; its write ends as given. -/
  | tick (write : Write)
  | evaluated (outcome : Result Decision)
  | deadline
  /-- The next frame of the reply is written. -/
  | write (write : Write)

/-- Where the driver waits. -/
inductive Phase
  | reading
  | evaluating (stage : Stage) (frames : List Frame) (close : Bool)
  | writing (frame : Frame) (frames : List Frame) (close : Bool)
  | ended (result : Result Unit)
  deriving DecidableEq

/-- The state of one connection. -/
structure Driver where
  session : Session
  phase : Phase
  /-- All bytes written to the peer. -/
  sent : Bytes
  /-- A write failed or timed out. -/
  failed : Bool

namespace Driver

/-- A new connection. -/
def new (config : Config) (policy : Policy) : Driver where
  session := (Session.new config.limits policy.stages policy.actions).requestMacros policy.macros
  phase := .reading
  sent := []
  failed := false

/-- The verdict that stands in for a policy without a valid decision. -/
def fallback (failOpen : Bool) : Decision :=
  { verdict := if failOpen then .continue else .tempfail }

/-- The frames of a reply: the decision's, or the fallback's if there is no decision or it
    does not pass validation. -/
def resolve (failOpen : Bool) (outcome : Result Decision) : SessionM (List Frame) := fun s =>
  match outcome with
  | .error _ => Session.complete (fallback failOpen) s
  | .ok decision =>
    match Session.complete decision s with
    | (.ok frames, t) => (.ok frames, t)
    | (.error _, t) => Session.complete (fallback failOpen) t

/-- Write the frames, then read on or close. -/
def reply (frames : List Frame) (close : Bool) : Phase :=
  match frames with
  | frame :: frames => .writing frame frames close
  | [] => if close then .ended (.ok ()) else .reading

/-- One `write_frame` and how it ends.  Nothing is sent of a frame that cannot be encoded;
    an interrupted write sends a strict part of the frame. -/
def writeFrame (d : Driver) (frame : Frame) (write : Write) : Option (Driver × Result Unit) :=
  match frame.encode, write with
  | .error e, _ => some ({ d with failed := true }, .error e)
  | .ok bytes, .done => some ({ d with sent := d.sent ++ bytes }, .ok ())
  | .ok bytes, .torn n e =>
    if n < bytes.length then
      some ({ d with sent := d.sent ++ bytes.take n, failed := true }, .error e)
    else none

/-- Compose the reply to a callback and go on to write it. -/
def conclude (failOpen : Bool) (d : Driver) (frames : List Frame) (close : Bool)
    (outcome : Result Decision) : Driver :=
  match resolve failOpen outcome d.session with
  | (.ok replies, s) => { d with session := s, phase := reply (frames ++ replies) close }
  | (.error e, s) => { d with session := s, phase := .ended (.error e) }

/-- Hand a frame to the session and, for a subscribed stage, evaluate the policy. -/
def handle (config : Config) (policy : Policy) (d : Driver) (frame : Frame) : Driver :=
  match Session.receive frame d.session with
  | (.error e, s) => { d with session := s, phase := .ended (.error e) }
  | (.ok step, s) =>
    match step.event with
    | none => { d with session := s, phase := reply step.frames step.close }
    | some stage =>
      if stage ∈ policy.stages then
        { d with session := s, phase := .evaluating stage step.frames step.close }
      else conclude config.failOpen { d with session := s } step.frames step.close (.ok {})

/-- One event of the environment. -/
def step (config : Config) (policy : Policy) (d : Driver) (event : Event) : Option Driver :=
  match d.phase, event with
  | .reading, .stop => some { d with phase := .ended (.ok ()) }
  | .reading, .endOfInput => some { d with phase := .ended (.ok ()) }
  | .reading, .readFailed e => some { d with phase := .ended (.error e) }
  | .reading, .frame frame =>
    if frame.payload.length + 1 ≤ config.limits.frameBytes then some (handle config policy d frame)
    else none
  | .evaluating _ frames close, .evaluated outcome =>
    some (conclude config.failOpen d frames close outcome)
  | .evaluating _ frames close, .deadline =>
    some (conclude config.failOpen d frames close (.error .timeout))
  | .evaluating _ frames close, .tick write =>
    if config.progressInterval then
      (writeFrame d (.empty progress) write).map fun
        | (d, .ok ()) => d
        -- The error of a keepalive takes the path of a policy error.
        | (d, .error e) => conclude config.failOpen d frames close (.error e)
    else none
  | .writing frame frames close, .write write =>
    (writeFrame d frame write).map fun
      | (d, .ok ()) => { d with phase := reply frames close }
      | (d, .error e) => { d with phase := .ended (.error e) }
  | _, _ => none

/-! ### What an event can do -/

/-- One constructor for each way the driver moves. -/
inductive Moves (config : Config) (policy : Policy) (d : Driver) : Event → Driver → Prop
  | leave {event : Event} {result : Result Unit} (hphase : d.phase = .reading) :
    Moves config policy d event { d with phase := .ended result }
  | frame {frame : Frame} (hphase : d.phase = .reading)
      (hlimit : frame.payload.length + 1 ≤ config.limits.frameBytes) :
    Moves config policy d (.frame frame) (handle config policy d frame)
  | decided {event : Event} {stage : Stage} {frames : List Frame} {close : Bool}
      {outcome : Result Decision} (hphase : d.phase = .evaluating stage frames close)
      (hevent : event = .evaluated outcome ∨ event = .deadline ∧ outcome = .error .timeout) :
    Moves config policy d event (conclude config.failOpen d frames close outcome)
  | kept {d' : Driver} {stage : Stage} {frames : List Frame} {close : Bool} {w : Write}
      (hphase : d.phase = .evaluating stage frames close)
      (hwrite : writeFrame d (.empty progress) w = some (d', .ok ())) :
    Moves config policy d (.tick w) d'
  | lost {d' : Driver} {stage : Stage} {frames : List Frame} {close : Bool} {w : Write}
      {e : Error} (hphase : d.phase = .evaluating stage frames close)
      (hwrite : writeFrame d (.empty progress) w = some (d', .error e)) :
    Moves config policy d (.tick w) (conclude config.failOpen d' frames close (.error e))
  | wrote {d' : Driver} {frame : Frame} {frames : List Frame} {close : Bool} {w : Write}
      (hphase : d.phase = .writing frame frames close)
      (hwrite : writeFrame d frame w = some (d', .ok ())) :
    Moves config policy d (.write w) { d' with phase := reply frames close }
  | broke {d' : Driver} {frame : Frame} {frames : List Frame} {close : Bool} {w : Write}
      {e : Error} (hphase : d.phase = .writing frame frames close)
      (hwrite : writeFrame d frame w = some (d', .error e)) :
    Moves config policy d (.write w) { d' with phase := .ended (.error e) }

/-- A step is one of these. -/
theorem step_moves {config : Config} {policy : Policy} {d d' : Driver} {event : Event}
    (h : step config policy d event = some d') : Moves config policy d event d' := by
  unfold step at h
  split at h
  next hphase => obtain rfl := Option.some.inj h; exact .leave hphase
  next hphase => obtain rfl := Option.some.inj h; exact .leave hphase
  next hphase => obtain rfl := Option.some.inj h; exact .leave hphase
  next hphase =>
    split at h
    next hlimit => obtain rfl := Option.some.inj h; exact .frame hphase hlimit
    next => exact nomatch h
  next hphase => obtain rfl := Option.some.inj h; exact .decided hphase (.inl rfl)
  next hphase => obtain rfl := Option.some.inj h; exact .decided hphase (.inr ⟨rfl, rfl⟩)
  next hphase =>
    split at h
    · obtain ⟨⟨d₁, r⟩, hwrite, rfl⟩ := Option.map_eq_some_iff.mp h
      cases r with
      | ok _ => exact .kept hphase hwrite
      | error e => exact .lost hphase hwrite
    · exact nomatch h
  next hphase =>
    obtain ⟨⟨d₁, r⟩, hwrite, rfl⟩ := Option.map_eq_some_iff.mp h
    cases r with
    | ok _ => exact .wrote hphase hwrite
    | error e => exact .broke hphase hwrite
  next => exact nomatch h

end Driver

end MtaHooks
