import MtaHooks.Lib.ChunkedStream
import MtaHooks.Protocol.Codec
import MtaHooks.Server.Driver

namespace MtaHooks

open FallibleState

/-!
# Reading frames

`readFrame` is `read_frame` on a transport that delivers the bytes in portions of its own
choosing, `readNextFrame` the driver's variant with deadlines.  `nextFrame` reads the same
from the bytes alone.

* `sees_readFrame` — the portions make no difference;
* `framing` — frames come back in order, a cut stream yields the whole frames and an error, and
  a refused length costs no payload byte.
-/

/-- What a peer sends, in the portions in which it arrives. -/
abbrev Transport := ChunkedStream UInt8

/-! ### The readers -/

/-- An `AsyncRead`: one byte, or `none` at the end of the stream, and a filled buffer. -/
structure Source (σ : Type) where
  read : FallibleState σ Error (Option UInt8)
  readExact : ℕ → FallibleState σ Error Bytes

/-- Bytes that arrive in portions. -/
def arriving : Source Transport := ⟨readItem, readExact .io⟩

/-- Bytes that are all there. -/
def buffered : Source Bytes := ⟨nextItem, nextExact .io⟩

variable {σ : Type}

/-- Complete a frame after its first length byte. -/
def readFrameAfterStart (r : Source σ) (first : UInt8) (max : ℕ) : FallibleState σ Error Frame := do
  let length ← r.readExact 3
  match length with
  -- Network order, with the byte that was waited for in front.
  | [x, y, z] =>
    let length := (fromBeBytes first x y z).toNat
    failIf (length = 0) (.invalid "zero frame length")
    -- Before the buffer of this length is allocated.
    failIf (length > max) (.limit "frame")
    let data ← r.readExact length
    match data with
    | command :: payload => return ⟨command, payload⟩
    | [] => fail (.panic "frame data")
  | _ => fail (.panic "length buffer")

/-- Read a frame; `none` at the end of the stream. -/
def readFrame (r : Source σ) (max : ℕ) : FallibleState σ Error (Option Frame) := do
  let first ← r.read
  match first with
  | none => return none
  | some first => do
    let frame ← readFrameAfterStart r first max
    return some frame

/-- How a deadline goes: it is met, or it fires and leaves the stream somewhere behind. -/
inductive Deadline (σ : Type)
  | met
  | fires (left : σ)

/-- `tokio::time::timeout`. -/
def timeout {α : Type} (deadline : Deadline σ) (x : FallibleState σ Error α) :
    FallibleState σ Error α := fun s =>
  match deadline with
  | .met => x s
  -- What was read of the frame before the deadline is lost.
  | .fires left => (.error .timeout, left)

/-- `read_next_frame`: `idle` is the idle deadline, if the configuration has one, and
    `partialRead` the frame deadline. -/
def readNextFrame (r : Source σ) (config : Config) (idle : Option (Deadline σ))
    (partialRead : Deadline σ) : FallibleState σ Error (Option Frame) := do
  let first ← match idle with
    | some idle => timeout idle r.read
    -- Without an idle timeout the driver waits for as long as it takes.
    | none => r.read
  match first with
  | none => return none
  | some first => do
    let frame ← timeout partialRead (readFrameAfterStart r first config.limits.frameBytes)
    return some frame

/-- The rest of a frame is the same from a stream and from a buffer. -/
theorem sees_readFrameAfterStart (first : UInt8) (max : ℕ) :
    Sees ChunkedStream.items (readFrameAfterStart arriving first max)
      (readFrameAfterStart buffered first max) := by
  refine Sees.bind (sees_readExact _ _) fun length => ?_
  split
  · refine Sees.bind (Sees.failIf _ _) fun _ => ?_
    refine Sees.bind (Sees.failIf _ _) fun _ => ?_
    refine Sees.bind (sees_readExact _ _) fun data => ?_
    cases data with
    | nil => exact Sees.fail _
    | cons command payload => exact Sees.pure _
  · exact Sees.fail _

/-- **The portions make no difference.** -/
theorem sees_readFrame (max : ℕ) :
    Sees ChunkedStream.items (readFrame arriving max) (readFrame buffered max) := by
  refine Sees.bind sees_readItem fun first => ?_
  cases first with
  | none => exact Sees.pure _
  | some first => exact Sees.bind (sees_readFrameAfterStart first max) fun _ => Sees.pure _

/-! ### Frames on the wire -/

/-- The bytes of a frame. -/
def Frame.wire (f : Frame) : Bytes :=
  toBeBytes (UInt32.ofNat (f.payload.length + 1)) ++ f.command :: f.payload

/-- The bytes of several frames. -/
def wire (frames : List Frame) : Bytes := frames.flatMap Frame.wire

/-- No frames are no bytes. -/
@[simp] theorem wire_nil : wire [] = [] := rfl

/-- Frames are written one behind the other. -/
@[simp] theorem wire_cons (f : Frame) (frames : List Frame) :
    wire (f :: frames) = f.wire ++ wire frames := rfl

/-- A frame that a reader with the maximum `max` takes. -/
def Frame.Fits (max : ℕ) (f : Frame) : Prop :=
  f.payload.length + 1 ≤ max ∧ f.payload.length + 1 < 2 ^ 32

instance (max : ℕ) (f : Frame) : Decidable (f.Fits max) :=
  inferInstanceAs (Decidable (_ ∧ _))

/-- A frame that fits can be encoded. -/
theorem Frame.Fits.encode {max : ℕ} {f : Frame} (h : f.Fits max) : f.encode = .ok f.wire :=
  if_pos h.2

/-- A frame takes five bytes besides its payload. -/
@[simp] theorem Frame.length_wire (f : Frame) : f.wire.length = f.payload.length + 5 := by
  unfold Frame.wire
  rw [List.length_append, length_toBeBytes, List.length_cons]
  omega

/-! ### Reading from a buffer -/

/-- What is there is read. -/
theorem readExact_enough {n : ℕ} {l : Bytes} (h : n ≤ l.length) :
    buffered.readExact n l = (.ok (l.take n), l.drop n) := if_pos h

/-- What is not there is an error. -/
theorem readExact_short {n : ℕ} {l : Bytes} (h : l.length < n) :
    buffered.readExact n l = (.error .io, []) := if_neg (Nat.not_le_of_lt h)

/-- At the end of the stream there is no frame. -/
theorem readFrame_nil (max : ℕ) : readFrame buffered max [] = (.ok none, []) := rfl

/-- Behind its first byte, a frame is what `readFrameAfterStart` reads. -/
theorem readFrame_cons (max : ℕ) (w : UInt8) (l : Bytes) :
    readFrame buffered max (w :: l) =
      ((readFrameAfterStart buffered w max l).1.map some,
        (readFrameAfterStart buffered w max l).2) := by
  have hfirst : buffered.read (w :: l) = (.ok (some w), l) := rfl
  unfold readFrame
  rw [run_bind_of_ok hfirst]
  show (readFrameAfterStart buffered w max >>= fun frame => pure (some frame)) l = _
  rw [run_bind]
  rcases readFrameAfterStart buffered w max l with ⟨r, t⟩
  cases r with
  | error e => rfl
  | ok f => rfl

section Length

variable {max : ℕ} {w x y z : UInt8} {rest : Bytes}

/-- A length of zero is refused with the rest unread. -/
theorem readFrameAfterStart_zero (h : (fromBeBytes w x y z).toNat = 0) :
    readFrameAfterStart buffered w max (x :: y :: z :: rest) =
      (.error (.invalid "zero frame length"), rest) := by
  have hlength : buffered.readExact 3 (x :: y :: z :: rest) = (.ok [x, y, z], rest) := rfl
  unfold readFrameAfterStart
  exact (run_bind_of_ok hlength).trans (run_failIf_bind_of_pos h)

/-- A length above the maximum is refused with the rest unread. -/
theorem readFrameAfterStart_limit (hzero : (fromBeBytes w x y z).toNat ≠ 0)
    (h : (fromBeBytes w x y z).toNat > max) :
    readFrameAfterStart buffered w max (x :: y :: z :: rest) = (.error (.limit "frame"), rest) := by
  have hlength : buffered.readExact 3 (x :: y :: z :: rest) = (.ok [x, y, z], rest) := rfl
  unfold readFrameAfterStart
  refine (run_bind_of_ok hlength).trans ?_
  exact (run_failIf_bind_of_neg hzero).trans (run_failIf_bind_of_pos h)

/-- A length within bounds is followed by as many bytes. -/
theorem readFrameAfterStart_data (hzero : (fromBeBytes w x y z).toNat ≠ 0)
    (h : (fromBeBytes w x y z).toNat ≤ max) :
    readFrameAfterStart buffered w max (x :: y :: z :: rest) =
      (buffered.readExact (fromBeBytes w x y z).toNat >>= fun data =>
        match data with
        | command :: payload => pure ⟨command, payload⟩
        | [] => fail (.panic "frame data") : FallibleState Bytes Error Frame) rest := by
  have hlength : buffered.readExact 3 (x :: y :: z :: rest) = (.ok [x, y, z], rest) := rfl
  unfold readFrameAfterStart
  refine (run_bind_of_ok hlength).trans ?_
  exact (run_failIf_bind_of_neg hzero).trans (run_failIf_bind_of_neg (Nat.not_lt_of_le h))

end Length

/-- The four bytes in front of a frame that fits. -/
theorem Frame.Fits.length_bytes {max : ℕ} {f : Frame} (h : f.Fits max) :
    ∃ w x y z, f.wire = w :: x :: y :: z :: f.command :: f.payload ∧
      (fromBeBytes w x y z).toNat = f.payload.length + 1 := by
  refine ⟨_, _, _, _, rfl, ?_⟩
  -- The length is at most the maximum of a `u32`, so it survives the conversion.
  rw [fromBeBytes_toBeBytes rfl, UInt32.toNat_ofNat']
  exact Nat.mod_eq_of_lt h.2

/-- **A frame that fits is read back**, with the bytes behind it left. -/
theorem readFrame_wire {max : ℕ} {f : Frame} (h : f.Fits max) (rest : Bytes) :
    readFrame buffered max (f.wire ++ rest) = (.ok (some f), rest) := by
  obtain ⟨w, x, y, z, hwire, hlength⟩ := h.length_bytes
  have hdata : buffered.readExact (f.payload.length + 1) (f.command :: f.payload ++ rest) =
      (.ok (f.command :: f.payload), rest) := by
    have hlen : (f.command :: f.payload).length = f.payload.length + 1 := rfl
    rw [← hlen, readExact_enough (by simp), List.take_left, List.drop_left]
  have hstart : readFrameAfterStart buffered w max
      (x :: y :: z :: (f.command :: f.payload ++ rest)) = (.ok f, rest) := by
    rw [readFrameAfterStart_data (by omega) (by rw [hlength]; exact h.1), hlength,
      run_bind_of_ok hdata]
    rfl
  rw [hwire]
  show readFrame buffered max (w :: x :: y :: z :: (f.command :: f.payload ++ rest)) = _
  rw [readFrame_cons, hstart]
  rfl

/-- **A frame cut short is an error.** -/
theorem readFrame_torn {max : ℕ} {f : Frame} (h : f.Fits max) {torn : Bytes}
    (hpart : torn <+: f.wire) (hnil : torn ≠ []) (hwhole : torn ≠ f.wire) :
    readFrame buffered max torn = (.error .io, []) := by
  obtain ⟨w, x, y, z, hwire, hlength⟩ := h.length_bytes
  have hshort : torn.length < f.wire.length :=
    lt_of_le_of_ne hpart.length_le fun heq => hwhole (hpart.eq_of_length heq)
  rw [hwire] at hpart hshort
  -- Inside the length the reader runs out of bytes at once.
  match torn, hnil with
  | a :: [], _ => rfl
  | [a, b], _ => rfl
  | [a, b, c], _ => rfl
  | a :: b :: c :: d :: rest, _ =>
    -- the length is whole and promises more than what follows
    simp only [List.cons_prefix_cons] at hpart
    obtain ⟨rfl, rfl, rfl, rfl, hrest⟩ := hpart
    simp only [List.length_cons] at hshort
    have hdata : buffered.readExact (f.payload.length + 1) rest = (.error .io, []) :=
      readExact_short (by omega)
    rw [readFrame_cons, readFrameAfterStart_data (by omega) (by rw [hlength]; exact h.1), hlength,
      run_bind_of_error hdata]
    rfl

/-! ### Reading a stream to its end -/

/-- Frames that fit are read in order, and what follows them is read next. -/
theorem drains_wire {max : ℕ} {frames : List Frame} (hfit : ∀ f ∈ frames, f.Fits max)
    {rest : Bytes} {got : List Frame} {o : Option Error}
    (h : Drains (readFrame buffered max) rest got o) :
    Drains (readFrame buffered max) (wire frames ++ rest) (frames ++ got) o := by
  induction frames with
  | nil => exact h
  | cons f frames ih =>
    rw [wire_cons, List.append_assoc]
    refine .next (readFrame_wire (hfit f List.mem_cons_self) _) ?_
    exact ih fun g hg => hfit g (List.mem_cons_of_mem _ hg)

/-- Reading to the end yields exactly these frames, and then the end of the stream or this
    error. -/
def ReadsExactly (max : ℕ) (t : Transport) (frames : List Frame) (o : Option Error) : Prop :=
  ∀ got o', Drains (readFrame arriving max) t got o' ↔ got = frames ∧ o' = o

/-- What is read from a buffer is read from each stream with its bytes. -/
theorem ReadsExactly.of_buffered {max : ℕ} {t : Transport} {frames : List Frame}
    {o : Option Error} (h : Drains (readFrame buffered max) t.items frames o) :
    ReadsExactly max t frames o := by
  have harriving := h.of_view (sees_readFrame max) rfl
  intro got o'
  constructor
  · exact harriving.unique
  · rintro ⟨rfl, rfl⟩
    exact harriving

/-- Whole frames, then the end of the stream. -/
theorem readsExactly_wire {max : ℕ} {frames : List Frame} (hfit : ∀ f ∈ frames, f.Fits max)
    {t : Transport} (ht : t.items = wire frames) : ReadsExactly max t frames none := by
  apply ReadsExactly.of_buffered
  have hend := drains_wire hfit (.done (readFrame_nil max))
  rw [List.append_nil, List.append_nil] at hend
  rw [ht]
  exact hend

/-- Whole frames, then a part of one. -/
theorem readsExactly_torn {max : ℕ} {frames : List Frame} (hfit : ∀ f ∈ frames, f.Fits max)
    {f : Frame} (hf : f.Fits max) {torn : Bytes} (hpart : torn <+: f.wire) (hnil : torn ≠ [])
    (hwhole : torn ≠ f.wire) {t : Transport} (ht : t.items = wire frames ++ torn) :
    ReadsExactly max t frames (some .io) := by
  apply ReadsExactly.of_buffered
  have htorn := drains_wire hfit (.failed (readFrame_torn hf hpart hnil hwhole))
  rw [List.append_nil] at htorn
  rw [ht]
  exact htorn

/-- A front part of a byte string of frames ends at a frame or inside one. -/
theorem cut_wire {frames : List Frame} {cut : Bytes} (h : cut <+: wire frames) :
    (∃ before after, frames = before ++ after ∧ cut = wire before) ∨
      ∃ before f after torn, frames = before ++ f :: after ∧ torn <+: f.wire ∧ torn ≠ [] ∧
        torn ≠ f.wire ∧ cut = wire before ++ torn := by
  induction frames generalizing cut with
  | nil => exact .inl ⟨[], [], rfl, List.prefix_nil.mp h⟩
  | cons f frames ih =>
    rw [wire_cons] at h
    -- The cut and the first frame both start the stream: one of them starts the other.
    rcases List.prefix_or_prefix_of_prefix h (List.prefix_append f.wire (wire frames)) with
      hin | hout
    · -- the cut is in the first frame, perhaps at one of its ends
      by_cases hnil : cut = []
      · exact .inl ⟨[], f :: frames, rfl, hnil⟩
      by_cases hwhole : cut = f.wire
      · refine .inl ⟨[f], frames, rfl, ?_⟩
        rw [hwhole, wire_cons, wire_nil, List.append_nil]
      · exact .inr ⟨[], f, frames, cut, rfl, hin, hnil, hwhole, rfl⟩
    · obtain ⟨later, rfl⟩ := hout
      rcases ih ((List.prefix_append_right_inj _).mp h) with
        ⟨before, after, rfl, rfl⟩ | ⟨before, g, after, torn, rfl, hpart, hnil, hwhole, rfl⟩
      · exact .inl ⟨f :: before, after, rfl, rfl⟩
      · refine .inr ⟨f :: before, g, after, torn, rfl, hpart, hnil, hwhole, ?_⟩
        rw [wire_cons, List.append_assoc]

/-- A length that is zero or too large is refused with the payload unread. -/
theorem readFrame_refused {max : ℕ} {t : Transport} {w x y z : UInt8} {payload : Bytes}
    (ht : t.items = w :: x :: y :: z :: payload)
    (h : (fromBeBytes w x y z).toNat = 0 ∨ (fromBeBytes w x y z).toNat > max) :
    ∃ e left, readFrame arriving max t = (.error e, left) ∧ left.items = payload := by
  -- On the bytes alone the payload is what is left; the view carries that over.
  have hrefused : ∃ e, readFrame buffered max t.items = (.error e, payload) := by
    rw [ht]
    by_cases hzero : (fromBeBytes w x y z).toNat = 0
    · exact ⟨_, by rw [readFrame_cons, readFrameAfterStart_zero hzero]; rfl⟩
    · have hlimit := h.resolve_left hzero
      exact ⟨_, by rw [readFrame_cons, readFrameAfterStart_limit hzero hlimit]; rfl⟩
  obtain ⟨e, he⟩ := hrefused
  obtain ⟨hvalue, hleft⟩ := Prod.mk.inj ((sees_readFrame max t).symm.trans he)
  exact ⟨e, _, Prod.ext hvalue rfl, hleft⟩

/-- The driver reads what `readFrame` reads, unless a deadline fires. -/
theorem readNextFrame_eq {σ : Type} (r : Source σ) (config : Config) {idle : Option (Deadline σ)}
    (hidle : ∀ deadline ∈ idle, deadline = .met) :
    readNextFrame r config idle .met = readFrame r config.limits.frameBytes := by
  cases idle with
  | none => rfl
  | some deadline =>
    rw [hidle deadline rfl]
    rfl

/-- **Framing.**  Frames that fit come back in order and nothing else does, wherever the
    transport splits the bytes; cut inside a frame, the stream yields the frames before it and an
    error; a length of zero or above the maximum is refused with the payload unread; and the
    driver reads the same. -/
theorem framing_round_trip {max : ℕ} {frames : List Frame} (hfit : ∀ f ∈ frames, f.Fits max) :
    (∀ f ∈ frames, f.encode = .ok f.wire) ∧
    (∀ t : Transport, t.items = wire frames → ReadsExactly max t frames none) ∧
    (∀ t : Transport, t.items <+: wire frames →
      (∃ before after, frames = before ++ after ∧ t.items = wire before ∧
        ReadsExactly max t before none) ∨
      ∃ before f after torn, frames = before ++ f :: after ∧ torn <+: f.wire ∧ torn ≠ [] ∧
        torn ≠ f.wire ∧ t.items = wire before ++ torn ∧
        ReadsExactly max t before (some .io)) ∧
    (∀ (t : Transport) w x y z payload, t.items = w :: x :: y :: z :: payload →
      (fromBeBytes w x y z).toNat = 0 ∨ (fromBeBytes w x y z).toNat > max →
        ∃ e left, readFrame arriving max t = (.error e, left) ∧ left.items = payload) ∧
    ∀ (config : Config) (idle : Option (Deadline Transport)) (t : Transport),
      (∀ deadline ∈ idle, deadline = .met) →
        readNextFrame arriving config idle .met t =
          readFrame arriving config.limits.frameBytes t := by
  refine ⟨fun f hf => (hfit f hf).encode, fun t ht => readsExactly_wire hfit ht, ?_,
    fun t w x y z payload ht h => readFrame_refused ht h,
    fun config idle t hidle => congrFun (readNextFrame_eq arriving config hidle) t⟩
  intro t ht
  rcases cut_wire ht with ⟨before, after, rfl, hcut⟩ | ⟨before, f, after, torn, rfl, hpart, hnil,
    hwhole, hcut⟩
  · have hbefore : ∀ g ∈ before, g.Fits max := fun g hg => hfit g (List.mem_append_left _ hg)
    exact .inl ⟨before, after, rfl, hcut, readsExactly_wire hbefore hcut⟩
  · have hbefore : ∀ g ∈ before, g.Fits max := fun g hg => hfit g (List.mem_append_left _ hg)
    have hf : f.Fits max := hfit f (List.mem_append_right _ List.mem_cons_self)
    exact .inr ⟨before, f, after, torn, rfl, hpart, hnil, hwhole, hcut,
      readsExactly_torn hbefore hf hpart hnil hwhole hcut⟩

/-- Two frames, the first split and the second joined to its end; and the first frame alone,
    with a byte of the second. -/
theorem framing_round_trip_at_two :
    ReadsExactly 3 ⟨[[0], [0, 0, 3, 66], [97], [98, 0, 0, 0], [1, 69]], by decide⟩
        [⟨66, [97, 98]⟩, ⟨69, []⟩] none ∧
      Frame.encode ⟨66, [97, 98]⟩ = .ok [0, 0, 0, 3, 66, 97, 98] :=
  have hfit : ∀ f ∈ ([⟨66, [97, 98]⟩, ⟨69, []⟩] : List Frame), f.Fits 3 := by decide
  ⟨(framing_round_trip hfit).2.1 _ (by decide), (framing_round_trip hfit).1 _ List.mem_cons_self⟩

end MtaHooks
