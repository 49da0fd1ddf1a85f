import MtaHooks.Text

namespace MtaHooks

/-!
# Wire layer — frames, constants and errors

The byte-level vocabulary of the milter protocol: a frame is a command byte with a
payload, announced on the wire by a big-endian `u32` that counts the command byte.

`Error` is the source's error type with its texts.  The extra constructor `panic` marks the
points where the source would abort (`expect`, `unreachable!`, indexing), so that reaching
one is visible in a result.
-/

/-! ### Protocol constants -/

/-- The word with only bit `n` set, `1 << n`. -/
abbrev bit (n : UInt32) : UInt32 := (1 : UInt32) <<< n

/-- Protocol version spoken by the filter. -/
def version : UInt32 := 6

/-- Largest payload of one body-replacement frame. -/
def bodyChunk : ℕ := 65536

/-- `SMFIF_ADDHDRS`. -/
def addHeaders : UInt32 := 1
/-- `SMFIF_CHGBODY`. -/
def changeBody : UInt32 := bit 1
/-- `SMFIF_ADDRCPT`. -/
def addRecipient : UInt32 := bit 2
/-- `SMFIF_DELRCPT`. -/
def deleteRecipient : UInt32 := bit 3
/-- `SMFIF_CHGHDRS`. -/
def changeHeaders : UInt32 := bit 4
/-- `SMFIF_QUARANTINE`. -/
def quarantine : UInt32 := bit 5
/-- `SMFIF_CHGFROM`. -/
def changeFrom : UInt32 := bit 6
/-- `SMFIF_ADDRCPT_PAR`. -/
def addRecipientPar : UInt32 := bit 7

/-- Every action the filter can encode. -/
def supportedActions : UInt32 :=
  addHeaders ||| changeBody ||| addRecipient ||| deleteRecipient ||| changeHeaders |||
    quarantine ||| changeFrom ||| addRecipientPar

/-- No reply to a header. -/
def nrHeader : UInt32 := bit 7
/-- No reply to CONNECT. -/
def nrConnect : UInt32 := bit 12
/-- No reply to HELO. -/
def nrHelo : UInt32 := bit 13
/-- No reply to MAIL. -/
def nrMail : UInt32 := bit 14
/-- No reply to RCPT. -/
def nrRcpt : UInt32 := bit 15
/-- No reply to DATA. -/
def nrData : UInt32 := bit 16
/-- No reply to an unknown command. -/
def nrUnknown : UInt32 := bit 17
/-- No reply to the end of the headers. -/
def nrEoh : UInt32 := bit 18
/-- No reply to a body chunk. -/
def nrBody : UInt32 := bit 19
/-- The values of headers keep their leading space. -/
def headerLeadingSpace : UInt32 := bit 20

/-- `SMFIR_PROGRESS`. -/
def progress : UInt8 := byte 'p'

/-- `SMFIR_SHUTDOWN`. -/
def shutdown : UInt8 := byte '4'

/-! ### Errors -/

/-- Sanitized transport categories of the HTTP client. -/
inductive HttpErrorKind
  | timeout
  | connect
  | request
  | body
  | decode
  | other
  deriving DecidableEq

/-- The error type of the crate.  `panic` is no value of the source's type: it stands for
    a point where the source would abort. -/
inductive Error
  | io
  | invalid (what : String)
  | limit (what : String)
  | sequence (command : UInt8) (state : String)
  | notNegotiated
  | timeout
  | policy (reason : String)
  | httpTransport (kind : HttpErrorKind)
  | httpStatus (status : UInt16)
  | panic (what : String)
  deriving DecidableEq

/-- `Result<T>`. -/
abbrev Result := Except Error

/-- `Option::ok_or`. -/
def okOr {α : Type} (o : Option α) (e : Error) : Result α :=
  match o with
  | some a => .ok a
  | none => .error e

@[simp] theorem okOr_some {α : Type} (a : α) (e : Error) : okOr (some a) e = .ok a := rfl
@[simp] theorem okOr_none {α : Type} (e : Error) : okOr (none : Option α) e = .error e := rfl

/-- A value that was there. -/
theorem okOr_eq_ok {α : Type} {o : Option α} {e : Error} {a : α} :
    okOr o e = .ok a ↔ o = some a := by
  cases o <;> simp

/-- The error of a missing value is the one given. -/
theorem okOr_eq_error {α : Type} {o : Option α} {e e' : Error} (h : okOr o e = .error e') :
    e' = e := by
  cases o with
  | none => exact (Except.error.inj h).symm
  | some a => exact nomatch h

/-- An early return with an error when the condition holds. -/
def rejectIf (c : Prop) [Decidable c] (e : Error) : Result Unit := if c then .error e else .ok ()

/-- No refusal is the condition failing. -/
theorem rejectIf_eq_ok {c : Prop} [Decidable c] {e : Error} {u : Unit} :
    rejectIf c e = .ok u ↔ ¬ c := by
  unfold rejectIf
  by_cases hc : c <;> simp [hc]

/-- The error of a refusal is the one given. -/
theorem rejectIf_eq_error {c : Prop} [Decidable c] {e e' : Error}
    (h : rejectIf c e = .error e') : e' = e := by
  unfold rejectIf at h
  split at h
  · exact (Except.error.inj h).symm
  · exact nomatch h

/-- Two computations in a row succeed if both do. -/
theorem Result.bind_ok_iff {α β : Type} {x : Result α} {f : α → Result β} {b : β} :
    (x >>= f) = .ok b ↔ ∃ a, x = .ok a ∧ f a = .ok b := by
  cases x with
  | error e => exact ⟨fun h => (nomatch h), fun ⟨_, h, _⟩ => (nomatch h)⟩
  | ok a => exact ⟨fun h => ⟨a, rfl, h⟩, fun ⟨_, h, h'⟩ => Except.ok.inj h ▸ h'⟩

/-- Two computations in a row fail with the first or with the second. -/
theorem Result.bind_error_iff {α β : Type} {x : Result α} {f : α → Result β} {e : Error} :
    (x >>= f) = .error e ↔ x = .error e ∨ ∃ a, x = .ok a ∧ f a = .error e := by
  cases x with
  | error e' =>
    refine ⟨fun h => .inl (congrArg Except.error (Except.error.inj h)), fun h => ?_⟩
    obtain h | ⟨_, h, _⟩ := h
    · exact congrArg Except.error (Except.error.inj h)
    · exact nomatch h
  | ok a =>
    refine ⟨fun h => .inr ⟨a, rfl, h⟩, fun h => ?_⟩
    obtain h | ⟨a', ha, h⟩ := h
    · exact nomatch h
    · exact Except.ok.inj ha ▸ h

/-- A choice succeeds by the side that was chosen. -/
theorem Result.ite_ok {α : Type} {c : Prop} [Decidable c] {x y : Result α} {a : α}
    (h : (if c then x else y) = .ok a) : (c ∧ x = .ok a) ∨ (¬ c ∧ y = .ok a) := by
  by_cases hc : c
  · exact .inl ⟨hc, by rwa [if_pos hc] at h⟩
  · exact .inr ⟨hc, by rwa [if_neg hc] at h⟩

/-- A loop that builds a list succeeds when every step does. -/
theorem Result.mapM_ok_mem {α β : Type} {f : α → Result β} {l : List α} {bs : List β}
    (h : l.mapM f = .ok bs) {a : α} (ha : a ∈ l) : ∃ b, f a = .ok b := by
  induction l generalizing bs with
  | nil => exact nomatch ha
  | cons x l ih =>
    rw [List.mapM_cons] at h
    obtain ⟨b, hb, h⟩ := Result.bind_ok_iff.mp h
    obtain ⟨bs', hbs, -⟩ := Result.bind_ok_iff.mp h
    rcases List.mem_cons.mp ha with rfl | ha
    · exact ⟨b, hb⟩
    · exact ih hbs ha

/-- Every result of a mapped list has its element. -/
theorem Result.mapM_ok_of_mem {α β : Type} {f : α → Result β} {l : List α} {bs : List β}
    (h : l.mapM f = .ok bs) {b : β} (hb : b ∈ bs) : ∃ a ∈ l, f a = .ok b := by
  induction l generalizing bs with
  | nil =>
    obtain rfl := Except.ok.inj h
    exact nomatch hb
  | cons x l ih =>
    rw [List.mapM_cons] at h
    obtain ⟨b', hb', h⟩ := Result.bind_ok_iff.mp h
    obtain ⟨bs', hbs, h⟩ := Result.bind_ok_iff.mp h
    obtain rfl := Except.ok.inj h
    rcases List.mem_cons.mp hb with rfl | hb
    · exact ⟨x, List.mem_cons_self, hb'⟩
    · obtain ⟨a, ha, hab⟩ := ih hbs hb
      exact ⟨a, List.mem_cons_of_mem x ha, hab⟩

/-- Every element of a mapped list has its result. -/
theorem Result.mem_of_mapM {α β : Type} {f : α → Result β} {l : List α} {bs : List β}
    (h : l.mapM f = .ok bs) {a : α} {b : β} (ha : a ∈ l) (hb : f a = .ok b) : b ∈ bs := by
  induction l generalizing bs with
  | nil => cases ha
  | cons x l ih =>
    rw [List.mapM_cons] at h
    obtain ⟨y, hy, h⟩ := Result.bind_ok_iff.mp h
    obtain ⟨ys, hys, h⟩ := Result.bind_ok_iff.mp h
    rw [← Except.ok.inj h]
    rcases List.mem_cons.mp ha with rfl | ha
    · rw [Except.ok.inj (hb.symm.trans hy)]
      exact List.mem_cons_self
    · exact List.mem_cons_of_mem _ (ih hys ha)

/-- A list is mapped where each of its elements is. -/
theorem Result.mapM_ok_of_forall {α β : Type} {f : α → Result β} {l : List α}
    (h : ∀ a ∈ l, ∃ b, f a = .ok b) : ∃ bs, l.mapM f = .ok bs := by
  induction l with
  | nil => exact ⟨[], rfl⟩
  | cons x l ih =>
    obtain ⟨b, hb⟩ := h x List.mem_cons_self
    obtain ⟨bs, hbs⟩ := ih fun a ha => h a (List.mem_cons_of_mem x ha)
    refine ⟨b :: bs, ?_⟩
    rw [List.mapM_cons, hb, hbs]
    rfl

/-- A loop that builds a list builds the list of what its steps return. -/
theorem Result.mapM_eq_map {α β : Type} {f : α → Result β} {g : α → β} {l : List α} {bs : List β}
    (h : l.mapM f = .ok bs) (hf : ∀ a ∈ l, ∀ b, f a = .ok b → b = g a) : bs = l.map g := by
  induction l generalizing bs with
  | nil => exact (Except.ok.inj h).symm
  | cons x l ih =>
    rw [List.mapM_cons] at h
    obtain ⟨b, hb, h⟩ := Result.bind_ok_iff.mp h
    obtain ⟨bs', hbs, h⟩ := Result.bind_ok_iff.mp h
    obtain rfl := Except.ok.inj h
    rw [hf x List.mem_cons_self b hb, ih hbs fun a ha => hf a (List.mem_cons_of_mem x ha)]
    rfl

/-- A loop that returns went through each of its elements. -/
theorem Result.foldlM_ok_append {σ α : Type} {f : σ → α → Result σ} {before after : List α}
    {a : α} {s s' : σ} (h : (before ++ a :: after).foldlM f s = .ok s') :
    ∃ t t', before.foldlM f s = .ok t ∧ f t a = .ok t' ∧ after.foldlM f t' = .ok s' := by
  rw [List.foldlM_append] at h
  obtain ⟨t, hbefore, h⟩ := Result.bind_ok_iff.mp h
  rw [List.foldlM_cons] at h
  obtain ⟨t', ha, hafter⟩ := Result.bind_ok_iff.mp h
  exact ⟨t, t', hbefore, ha, hafter⟩

/-- A fold that succeeds has succeeded at every element. -/
theorem Result.foldlM_ok_mem {σ α : Type} {f : σ → α → Result σ} {l : List α} {a : α}
    {s s' : σ} (h : l.foldlM f s = .ok s') (ha : a ∈ l) : ∃ t t', f t a = .ok t' := by
  obtain ⟨before, after, rfl⟩ := List.append_of_mem ha
  obtain ⟨t, t', -, hstep, -⟩ := Result.foldlM_ok_append h
  exact ⟨t, t', hstep⟩

/-- **Loop rule.**  If every step of a loop that may fail follows a step of one that may
    not, the whole loop does. -/
theorem Result.foldlM_simulates {σ τ ι : Type} {f : σ → ι → Result σ} {g : τ → ι → τ}
    {R : σ → τ → Prop} {l : List ι} {a a' : σ} {b : τ} (h : l.foldlM f a = .ok a')
    (hab : R a b) (hstep : ∀ a b, ∀ i ∈ l, ∀ a', R a b → f a i = .ok a' → R a' (g b i)) :
    R a' (l.foldl g b) := by
  induction l generalizing a b with
  | nil =>
    obtain rfl := Except.ok.inj h
    exact hab
  | cons i l ih =>
    rw [List.foldlM_cons] at h
    obtain ⟨a₁, h₁, h⟩ := Result.bind_ok_iff.mp h
    exact ih h (hstep a b i List.mem_cons_self a₁ hab h₁)
      fun a b j hj => hstep a b j (List.mem_cons_of_mem i hj)

/-- **Invariant rule.**  What every step of a loop that may fail preserves, the loop does. -/
theorem Result.foldlM_invariant {σ ι : Type} {f : σ → ι → Result σ} {P : σ → Prop} {l : List ι}
    {a a' : σ} (h : l.foldlM f a = .ok a') (ha : P a)
    (hstep : ∀ a, ∀ i ∈ l, ∀ a', P a → f a i = .ok a' → P a') : P a' :=
  Result.foldlM_simulates (g := fun () _ => ()) (b := ()) (R := fun a () => P a) h ha
    fun a () i hi a' => hstep a i hi a'

/-- Every error of the computation is in the class. -/
def Result.FailsWith {α : Type} (E : Error → Prop) (r : Result α) : Prop :=
  ∀ e, r = .error e → E e

namespace Result.FailsWith

variable {α β : Type} {E : Error → Prop}

/-- A value does not fail. -/
theorem ok (a : α) : Result.FailsWith E (.ok a : Result α) := fun _ h => nomatch h

/-- A value does not fail. -/
theorem pure (a : α) : Result.FailsWith E (Pure.pure a : Result α) := fun _ h => nomatch h

/-- An error fails as itself. -/
theorem error {e : Error} (he : E e) : Result.FailsWith E (.error e : Result α) := by
  intro e' h
  obtain rfl := Except.error.inj h
  exact he

/-- Two computations in a row fail as one of them. -/
theorem bind {x : Result α} {f : α → Result β} (hx : Result.FailsWith E x)
    (hf : ∀ a, Result.FailsWith E (f a)) : Result.FailsWith E (x >>= f) := by
  intro e h
  cases x with
  | error e' =>
    obtain rfl : e' = e := Except.error.inj h
    exact hx e' rfl
  | ok a => exact hf a e h

/-- A choice fails as one of its sides. -/
theorem ite {c : Prop} [Decidable c] {x y : Result α} (hx : c → Result.FailsWith E x)
    (hy : ¬ c → Result.FailsWith E y) : Result.FailsWith E (if c then x else y) := by
  by_cases hc : c
  · rw [if_pos hc]; exact hx hc
  · rw [if_neg hc]; exact hy hc

/-- A mapped list fails as one of its elements. -/
theorem mapM {f : α → Result β} (hf : ∀ a, Result.FailsWith E (f a)) (l : List α) :
    Result.FailsWith E (l.mapM f) := by
  induction l with
  | nil => exact pure _
  | cons a l ih =>
    rw [List.mapM_cons]
    exact bind (hf a) fun _ => bind ih fun _ => pure _

/-- A fold fails as one of its steps. -/
theorem foldlM {f : β → α → Result β} (hf : ∀ b a, Result.FailsWith E (f b a)) (l : List α)
    (b : β) : Result.FailsWith E (l.foldlM f b) := by
  induction l generalizing b with
  | nil => exact pure _
  | cons a l ih =>
    rw [List.foldlM_cons]
    exact bind (hf b a) ih

end Result.FailsWith

/-! ### Frames -/

/-- `u32::to_be_bytes`. -/
def toBeBytes (n : UInt32) : Bytes :=
  [(n >>> 24).toUInt8, (n >>> 16).toUInt8, (n >>> 8).toUInt8, n.toUInt8]

/-- `u32::from_be_bytes`. -/
def fromBeBytes (w x y z : UInt8) : UInt32 :=
  w.toUInt32 <<< 24 ||| x.toUInt32 <<< 16 ||| y.toUInt32 <<< 8 ||| z.toUInt32

/-- One milter frame. -/
structure Frame where
  command : UInt8
  payload : Bytes
  deriving DecidableEq

/-- A frame without payload. -/
def Frame.empty (command : UInt8) : Frame := ⟨command, []⟩

@[simp] theorem Frame.empty_command (c : UInt8) : (Frame.empty c).command = c := rfl
@[simp] theorem Frame.empty_payload (c : UInt8) : (Frame.empty c).payload = [] := rfl

/-- The wire encoding of a frame; the length has to fit the four length bytes. -/
def Frame.encode (f : Frame) : Result Bytes :=
  if f.payload.length + 1 < 2 ^ 32 then
    .ok (toBeBytes (UInt32.ofNat (f.payload.length + 1)) ++ f.command :: f.payload)
  else .error (.limit "frame")

/-- The strings closed by a NUL in the remaining bytes; `current` is the string begun
    before them. -/
def nulFields (current : Bytes) : Bytes → List Bytes
  | [] => []
  | c :: rest =>
    if c = 0 then current :: nulFields [] rest else nulFields (current ++ [c]) rest

/-- Split a payload of NUL-terminated strings. -/
def strings (p : Bytes) : Result (List Bytes) :=
  if p.isEmpty then .ok []
  else if p.getLast? ≠ some 0 then .error (.invalid "unterminated string")
  else .ok (nulFields [] p)

/-- A frame whose payload is the given strings, each NUL-terminated. -/
def stringFrame (command : UInt8) (values : List Bytes) : Result Frame := do
  let p ← values.foldlM (fun p value =>
    if (0 : UInt8) ∈ value then .error (.invalid "NUL in response")
    else .ok (p ++ value ++ [0])) []
  return ⟨command, p⟩

/-- A frame of strings has the command it was built with. -/
theorem stringFrame_command {c : UInt8} {values : List Bytes} {f : Frame}
    (h : stringFrame c values = .ok f) : f.command = c := by
  obtain ⟨p, -, h⟩ := Result.bind_ok_iff.mp h
  obtain rfl := Except.ok.inj h
  rfl

/-! ### Negotiation options and macro lists -/

/-- Macro classes of the negotiation reply, numbered as on the wire. -/
inductive MacroStage
  | connect
  | helo
  | mail
  | recipient
  | data
  | endMessage
  | endHeaders
  deriving DecidableEq

/-- All macro classes in wire order. -/
def MacroStage.all : List MacroStage :=
  [.connect, .helo, .mail, .recipient, .data, .endMessage, .endHeaders]

/-- The wire number of a macro class. -/
def MacroStage.toUInt32 : MacroStage → UInt32
  | .connect => 0
  | .helo => 1
  | .mail => 2
  | .recipient => 3
  | .data => 4
  | .endMessage => 5
  | .endHeaders => 6

/-- Requested macro names per class. -/
abbrev MacroLists := List (MacroStage × List Str)

namespace MacroLists

/-- No name is requested for any class. -/
def isEmpty (m : MacroLists) : Bool := m.all fun e => e.2.isEmpty

/-- Append one validated name to the space-separated list of its class. -/
def pushName (list name : Str) : Result Str :=
  if name.isEmpty || name.any (fun c => c == 0 || isAsciiWhitespace c || isAsciiControl c) then
    .error (.invalid "macro name")
  else .ok ((if list.isEmpty then list else list ++ [byte ' ']) ++ name)

/-- The space-separated names requested for one class. -/
def classList (m : MacroLists) (stage : MacroStage) : Result Str :=
  (m.filter fun e => e.1 = stage).foldlM (fun list e => e.2.foldlM pushName list) []

/-- Every class in wire order: its number, then its names as a NUL-terminated string. -/
def encode (m : MacroLists) : Result Bytes :=
  MacroStage.all.foldlM (fun out stage => do
    let list ← m.classList stage
    return out ++ toBeBytes stage.toUInt32 ++ list ++ [0]) []

end MacroLists

/-- The three negotiated option words. -/
structure Options where
  version : UInt32
  actions : UInt32
  protocol : UInt32
  deriving DecidableEq

/-- The negotiation frame of the three words. -/
def Options.frame (o : Options) : Frame :=
  ⟨byte 'O', toBeBytes o.version ++ toBeBytes o.actions ++ toBeBytes o.protocol⟩

/-- The negotiation reply, with the macro-list overrides after the three words. -/
def Options.frameWithMacros (o : Options) (macros : MacroLists) : Result Frame :=
  if macros.isEmpty then .ok o.frame
  else do
    let lists ← macros.encode
    return { o.frame with payload := o.frame.payload ++ lists }

/-- The negotiation reply is one `O` frame. -/
theorem Options.frameWithMacros_command {o : Options} {macros : MacroLists} {f : Frame}
    (h : o.frameWithMacros macros = .ok f) : f.command = byte 'O' := by
  unfold frameWithMacros at h
  split at h
  · obtain rfl := Except.ok.inj h
    rfl
  · cases hl : macros.encode with
    | error e => rw [hl] at h; exact nomatch h
    | ok lists => rw [hl] at h; obtain rfl := Except.ok.inj h; rfl

end MtaHooks
