import MtaHooks.Server.Decisions

namespace MtaHooks

open FallibleState

/-!
# Framing of the byte stream

What the peer reads: whole frames, then at most one torn frame, and nothing after it.  A
failed reply ends the connection at once.  A failed keepalive does not: its error takes the
path of a policy error, and the fallback reply follows the torn keepalive on the wire.

* `orderly_iff` — the stream is orderly in every state of a run exactly when no keepalive of
  the run is lost;
* `sampleLost_not_orderly` — a run that writes a reply after half a keepalive.
-/

namespace Driver

/-- The bytes are the encodings of the frames. -/
def Encodes (frames : List Frame) (bytes : Bytes) : Prop :=
  ∃ parts, List.Forall₂ (fun f part => Frame.encode f = .ok part) frames parts ∧
    bytes = parts.flatten

/-- Nothing is encoded as nothing. -/
theorem Encodes.nil : Encodes [] [] := ⟨[], .nil, rfl⟩

/-- A further frame is encoded behind the others. -/
theorem Encodes.snoc {frames : List Frame} {bytes part : Bytes} {f : Frame}
    (h : Encodes frames bytes) (hf : f.encode = .ok part) :
    Encodes (frames ++ [f]) (bytes ++ part) := by
  obtain ⟨parts, hparts, rfl⟩ := h
  refine ⟨parts ++ [part], List.rel_append hparts (.cons hf .nil), ?_⟩
  rw [List.flatten_append, List.flatten_singleton]

/-- A strict part of the encoding of some frame. -/
def Torn (bytes : Bytes) : Prop :=
  ∃ f part, Frame.encode f = .ok part ∧ bytes <+: part ∧ bytes ≠ part

/-- The wire law: whole frames, then at most one torn frame; and once a write has failed the
    connection has ended. -/
structure Orderly (d : Driver) : Prop where
  framed : ∃ frames whole torn, d.sent = whole ++ torn ∧ Encodes frames whole ∧
    (torn = [] ∨ Torn torn)
  silent : d.failed = true → ∃ result, d.phase = .ended result

/-- What one write does to the stream. -/
theorem writeFrame_stream {d d' : Driver} {frame : Frame} {w : Write} {r : Result Unit}
    (h : d.writeFrame frame w = some (d', r)) :
    (∃ part, frame.encode = .ok part ∧ w = .done ∧ r = .ok () ∧ d'.sent = d.sent ++ part ∧
      d'.failed = d.failed) ∨
    ∃ torn e, (torn = [] ∨ Torn torn) ∧ r = .error e ∧ d'.sent = d.sent ++ torn ∧
      d'.failed = true := by
  unfold writeFrame at h
  split at h
  -- A frame that cannot be encoded fails before a byte is written.
  next e he =>
    obtain ⟨rfl, rfl⟩ := Prod.mk.inj (Option.some.inj h)
    exact .inr ⟨[], e, .inl rfl, rfl, (List.append_nil _).symm, rfl⟩
  next part he =>
    obtain ⟨rfl, rfl⟩ := Prod.mk.inj (Option.some.inj h)
    exact .inl ⟨part, he, rfl, rfl, rfl, rfl⟩
  next part n e he =>
    split at h
    next hn =>
      obtain ⟨rfl, rfl⟩ := Prod.mk.inj (Option.some.inj h)
      -- A write that fails has sent fewer bytes than the frame has.
      refine .inr ⟨part.take n, e, .inr ⟨frame, part, he, List.take_prefix n part, fun heq => ?_⟩,
        rfl, rfl, rfl⟩
      have hlen := congrArg List.length heq
      rw [List.length_take] at hlen
      omega
    next => exact nomatch h

/-- The invariant of a run without a lost keepalive. -/
structure Intact (d : Driver) : Prop where
  orderly : Orderly d
  whole : d.failed = false → ∃ frames, Encodes frames d.sent

/-- Outside `ended` nothing has failed. -/
theorem Intact.running {d : Driver} (h : Intact d) (hphase : ∀ r, d.phase ≠ .ended r) :
    d.failed = false := by
  by_contra hf
  obtain ⟨r, hr⟩ := h.orderly.silent (by simpa using hf)
  exact hphase r hr

/-- A driver that has written whole frames only is intact. -/
theorem Intact.of_whole {d : Driver} {frames : List Frame} (h : Encodes frames d.sent)
    (hf : d.failed = false) : Intact d where
  orderly :=
    ⟨⟨frames, d.sent, [], (List.append_nil _).symm, h, .inl rfl⟩, fun ht => by simp [hf] at ht⟩
  whole := fun _ => ⟨frames, h⟩

/-- Composing a reply writes nothing. -/
theorem conclude_stream (failOpen : Bool) (d : Driver) (frames : List Frame) (close : Bool)
    (outcome : Result Decision) :
    (d.conclude failOpen frames close outcome).sent = d.sent ∧
      (d.conclude failOpen frames close outcome).failed = d.failed := by
  unfold conclude
  split <;> exact ⟨rfl, rfl⟩

/-- Handling a frame writes nothing. -/
theorem handle_stream (config : Config) (policy : Policy) (d : Driver) (frame : Frame) :
    (d.handle config policy frame).sent = d.sent ∧
      (d.handle config policy frame).failed = d.failed := by
  unfold handle
  split
  · exact ⟨rfl, rfl⟩
  · split
    · exact ⟨rfl, rfl⟩
    · split
      · exact ⟨rfl, rfl⟩
      · exact conclude_stream _ _ _ _ _

/-! ### Lost keepalives -/

/-- A keepalive write that fails or times out. -/
def LostKeepalive : Event → Prop
  | .tick (.torn _ _) => True
  | _ => False

/-- A keepalive can be encoded. -/
theorem progress_encode : ∃ part, (Frame.empty progress).encode = .ok part := ⟨_, rfl⟩

/-- A keepalive write fails only by what the environment does. -/
theorem lost_of_error {d d' : Driver} {w : Write} {e : Error}
    (h : d.writeFrame (.empty progress) w = some (d', .error e)) : LostKeepalive (.tick w) := by
  obtain ⟨part, hpart⟩ := progress_encode
  cases w with
  | done => simp [writeFrame, hpart] at h
  | torn n e' => trivial

/-- **Without a lost keepalive the stream stays intact.** -/
theorem Intact.moves {config : Config} {policy : Policy} {d d' : Driver} {event : Event}
    (h : Intact d) (hm : Moves config policy d event d') (hkept : ¬ LostKeepalive event) :
    Intact d' := by
  -- A driver that moves has not ended, so everything it sent is whole.
  have hwhole : (∀ r, d.phase ≠ .ended r) → d.failed = false ∧ ∃ frames, Encodes frames d.sent :=
    fun hphase => ⟨h.running hphase, h.whole (h.running hphase)⟩
  cases hm with
  | leave hphase =>
    obtain ⟨hf, frames, hsent⟩ := hwhole (by rw [hphase]; exact fun _ h => nomatch h)
    exact .of_whole hsent hf
  | @frame frame hphase hlimit =>
    obtain ⟨hf, frames, hsent⟩ := hwhole (by rw [hphase]; exact fun _ h => nomatch h)
    obtain ⟨hs', hf'⟩ := handle_stream config policy d frame
    exact .of_whole (hs' ▸ hsent) (hf'.trans hf)
  | @decided _ stage queued close outcome hphase hevent =>
    obtain ⟨hf, frames, hsent⟩ := hwhole (by rw [hphase]; exact fun _ h => nomatch h)
    obtain ⟨hs', hf'⟩ := conclude_stream config.failOpen d queued close outcome
    exact .of_whole (hs' ▸ hsent) (hf'.trans hf)
  | kept hphase hwrite =>
    obtain ⟨hf, frames, hsent⟩ := hwhole (by rw [hphase]; exact fun _ h => nomatch h)
    rcases writeFrame_stream hwrite with ⟨part, hpart, -, -, hs', hf'⟩ | ⟨_, _, _, hr, _⟩
    · exact .of_whole (hs' ▸ hsent.snoc hpart) (hf'.trans hf)
    · exact nomatch hr
  | lost hphase hwrite => exact absurd (lost_of_error hwrite) hkept
  | wrote hphase hwrite =>
    obtain ⟨hf, frames, hsent⟩ := hwhole (by rw [hphase]; exact fun _ h => nomatch h)
    rcases writeFrame_stream hwrite with ⟨part, hpart, -, -, hs', hf'⟩ | ⟨_, _, _, hr, _⟩
    · exact .of_whole (hs' ▸ hsent.snoc hpart) (hf'.trans hf)
    · exact nomatch hr
  -- A reply that fails ends the connection, so the torn frame stays the last.
  | @broke d₁ frame queued close w e hphase hwrite =>
    obtain ⟨hf, frames, hsent⟩ := hwhole (by rw [hphase]; exact fun _ h => nomatch h)
    rcases writeFrame_stream hwrite with ⟨_, _, _, hr, _⟩ | ⟨torn, e', htorn, -, hs', hf'⟩
    · exact nomatch hr
    · refine ⟨⟨⟨frames, d.sent, torn, hs', hsent, htorn⟩, fun _ => ⟨_, rfl⟩⟩, fun ht => ?_⟩
      rw [show d₁.failed = false from ht] at hf'
      exact nomatch hf'

/-- A lost keepalive does not end the connection: the driver goes on to write the fallback
    reply. -/
theorem lost_not_orderly {config : Config} {policy : Policy} {d d' : Driver} {event : Event}
    (hs : Sound config d) (hlost : LostKeepalive event)
    (hstep : step config policy d event = some d') : ¬ Orderly d' := by
  have hm := step_moves hstep
  cases hm with
  | leave hphase => cases event <;> simp_all [LostKeepalive, step]
  | frame _ _ => exact absurd hlost id
  | decided _ hevent => rcases hevent with rfl | ⟨rfl, -⟩ <;> exact absurd hlost id
  | kept hphase hwrite =>
    rcases writeFrame_stream hwrite with ⟨_, _, rfl, _⟩ | ⟨_, _, _, hr, _⟩
    · exact absurd hlost id
    · cases hr
  | @lost d₁ stage frames close w e hphase hwrite =>
    intro horderly
    obtain ⟨hpending, rfl, rfl, hframe⟩ := hs.waiting _ _ _ hphase
    obtain ⟨hsession, -⟩ := writeFrame_some hwrite
    obtain ⟨replies, t, hresolve, hcases⟩ := Session.resolve_eq hs.session hpending
      (hs.limits ▸ hframe) config.failOpen (.error e)
    rcases hcases with ⟨_, hno, _⟩ | ⟨-, rfl⟩
    · cases hno
    -- The error of the keepalive is handled like one of the policy: a reply is queued.
    have hphase' : (d₁.conclude config.failOpen [] false (.error e)).phase =
        .writing (Session.fallbackFrame config.failOpen) [] false := by
      simp [conclude, hsession, hresolve, reply]
    have hfailed : (d₁.conclude config.failOpen [] false (.error e)).failed = true := by
      rw [(conclude_stream _ _ _ _ _).2]
      rcases writeFrame_stream hwrite with ⟨_, _, _, hr, _⟩ | ⟨_, _, _, _, _, hf⟩
      · cases hr
      · exact hf
    obtain ⟨r, hended⟩ := horderly.silent hfailed
    rw [hphase'] at hended
    cases hended
  | wrote _ _ => exact absurd hlost id
  | broke _ _ => exact absurd hlost id

/-! ### Whole runs -/

/-- The stream is orderly in every state of the run. -/
def OrderlyRun (config : Config) (policy : Policy) (events : List Event) : Prop :=
  ∀ done, done <+: events → ∀ d, Reaches config policy done d → Orderly d

/-- The stream stays intact in a run without a lost keepalive. -/
theorem Reaches.intact {config : Config} {policy : Policy} {events : List Event} {d : Driver}
    (h : Reaches config policy events d) (hkept : ∀ event ∈ events, ¬ LostKeepalive event) :
    Intact d := by
  have hnew : Intact (new config policy) := .of_whole Encodes.nil rfl
  refine Machine.exec_invariant_on h hnew ?_
  exact fun d d' event hevent hstep hd => hd.moves (step_moves hstep) (hkept event hevent)

/-- **When the stream is orderly.**  In every state of a run the peer has read whole frames,
    then at most one torn frame, and nothing follows a failed write, exactly when no keepalive
    of the run is lost. -/
theorem orderly_iff {config : Config} {policy : Policy} {events : List Event} {d : Driver}
    (hrun : Reaches config policy events d) :
    OrderlyRun config policy events ↔ ∀ event ∈ events, ¬ LostKeepalive event := by
  constructor
  · intro horderly event hevent hlost
    -- Right after the lost keepalive the driver has failed and still runs.
    obtain ⟨before, after, rfl⟩ := List.append_of_mem hevent
    obtain ⟨d₁, hbefore, hafter⟩ := Machine.exec_append.mp hrun
    obtain ⟨d₂, hstep, -⟩ := Machine.exec_cons.mp hafter
    have hreach : Reaches config policy (before ++ [event]) d₂ :=
      Machine.exec_append.mpr ⟨d₁, hbefore, Machine.exec_cons.mpr ⟨d₂, hstep, rfl⟩⟩
    have hpre : before ++ [event] <+: before ++ event :: after := ⟨after, by simp⟩
    exact lost_not_orderly (Reaches.sound hbefore) hlost hstep (horderly _ hpre d₂ hreach)
  · intro hkept done hpre d' hd'
    exact (Reaches.intact hd' fun event hevent => hkept event (hpre.subset hevent)).orderly

/-- The stream of the sample is orderly. -/
theorem orderly_at_connect : OrderlyRun {} samplePolicy sampleEvents :=
  (orderly_iff sampleDriver_reaches).mpr (by simp [sampleEvents, LostKeepalive])

/-- The keepalive of the CONNECT callback stops after two bytes; then a write succeeds. -/
def lostEvents : List Event := sampleEvents ++ [.tick (.torn 2 .io), .write .done]

/-- The run with a lost keepalive is one. -/
theorem lostEvents_run :
    (Machine.exec (step {} samplePolicy) (new {} samplePolicy) lostEvents).isSome := by
  decide +kernel

/-- The connection after its lost keepalive. -/
def sampleLost : Driver := Option.get _ lostEvents_run

/-- After half a keepalive the peer reads the fallback reply, and the driver reads on. -/
theorem sampleLost_not_orderly :
    Reaches {} samplePolicy lostEvents sampleLost ∧
      sampleLost.sent = sampleDriver.sent ++ [0, 0] ++ [0, 0, 0, 1, byte 't'] ∧
      sampleLost.phase = .reading ∧ ¬ OrderlyRun {} samplePolicy lostEvents := by
  have hreach : Reaches {} samplePolicy lostEvents sampleLost := (Option.some_get _).symm
  have hfailed : sampleLost.failed = true := by decide +kernel
  have hphase : sampleLost.phase = .reading := by decide +kernel
  refine ⟨hreach, by decide +kernel, hphase, fun horderly => ?_⟩
  obtain ⟨r, hended⟩ := (horderly lostEvents (List.prefix_refl _) sampleLost hreach).silent hfailed
  rw [hphase] at hended
  exact nomatch hended

end Driver

end MtaHooks
