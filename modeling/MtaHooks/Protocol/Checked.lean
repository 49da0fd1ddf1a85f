import MtaHooks.Protocol.Command
import MtaHooks.Protocol.Modification

namespace MtaHooks

/-!
# Indices that can fail

In the source an index, a range of a slice, `remove`, `insert` and `expect` panic outside their
bounds.  `Checked` has these operations with the panic as an error, and over them a second
translation of the functions that use them, index by index.

* `Checked.strings_eq`, `Checked.decode_eq`, `Checked.headerValue_eq` — on every input the
  checked function is the total one: no bound is ever missed;
* `Command.decode_safe` — decoding refuses what it does not accept, and never panics.
-/

/-- The error stands for a panic. -/
def Error.isPanic : Error → Bool
  | .panic _ => true
  | _ => false

/-- The computation does not panic. -/
abbrev Result.Safe {α : Type} (r : Result α) : Prop := Result.FailsWith (·.isPanic = false) r

namespace Checked

variable {α : Type}

/-- `xs[i]`. -/
def index (xs : List α) (i : ℕ) : Result α := okOr xs[i]? (.panic "index out of bounds")

/-- `&xs[start..stop]`. -/
def range (xs : List α) (start stop : ℕ) : Result (List α) :=
  if start ≤ stop ∧ stop ≤ xs.length then .ok ((xs.take stop).drop start)
  else .error (.panic "range out of bounds")

/-- `&xs[start..]`. -/
def rangeFrom (xs : List α) (start : ℕ) : Result (List α) := range xs start xs.length

/-- `xs[i] = a`. -/
def store (xs : List α) (i : ℕ) (a : α) : Result (List α) :=
  if i < xs.length then .ok (xs.set i a) else .error (.panic "index out of bounds")

/-- `Vec::remove`. -/
def remove (xs : List α) (i : ℕ) : Result (α × List α) := do
  let a ← okOr xs[i]? (.panic "removal index")
  return (a, xs.eraseIdx i)

/-- `Vec::insert`. -/
def insert (xs : List α) (i : ℕ) (a : α) : Result (List α) :=
  if i ≤ xs.length then .ok (xs.insertIdx i a) else .error (.panic "insertion index")

/-- `Option::expect`. -/
def expect (o : Option α) (what : String) : Result α := okOr o (.panic what)

/-- `n + 1` of a `u32`. -/
def succ (n : UInt32) : Result UInt32 :=
  if n.toNat + 1 < 2 ^ 32 then .ok (n + 1) else .error (.panic "addition overflow")

/-- An index within the bounds does not panic. -/
theorem index_of_lt {xs : List α} {i : ℕ} (h : i < xs.length) : index xs i = .ok xs[i] := by
  rw [index, List.getElem?_eq_getElem h]
  rfl

/-- A range within the bounds does not panic. -/
theorem range_of_le {xs : List α} {start stop : ℕ} (h : start ≤ stop) (h' : stop ≤ xs.length) :
    range xs start stop = .ok ((xs.take stop).drop start) :=
  if_pos ⟨h, h'⟩

/-- A range to the end that starts within the bounds does not panic. -/
theorem rangeFrom_of_le {xs : List α} {start : ℕ} (h : start ≤ xs.length) :
    rangeFrom xs start = .ok (xs.drop start) := by
  rw [rangeFrom, range_of_le h le_rfl, List.take_length]

/-- A store within the bounds does not panic. -/
theorem store_of_lt {xs : List α} {i : ℕ} {a : α} (h : i < xs.length) :
    store xs i a = .ok (xs.set i a) :=
  if_pos h

/-- An insertion at the length at most does not panic. -/
theorem insert_of_le {xs : List α} {i : ℕ} {a : α} (h : i ≤ xs.length) :
    insert xs i a = .ok (xs.insertIdx i a) :=
  if_pos h

/-! ### Strings -/

/-- The loop of `strings` over the bytes from position `i`; the string begun starts at
    `start`. -/
def stringsLoop (p : Bytes) : Bytes → ℕ → ℕ → List Bytes → Result (List Bytes)
  | [], _, _, result => .ok result
  | b :: rest, i, start, result =>
    if b = 0 then do
      let field ← range p start i
      stringsLoop p rest (i + 1) (i + 1) (result ++ [field])
    else stringsLoop p rest (i + 1) start result

/-- Split a payload of NUL-terminated strings. -/
def strings (p : Bytes) : Result (List Bytes) :=
  if p.isEmpty then .ok []
  else if p.getLast? ≠ some 0 then .error (.invalid "unterminated string")
  else stringsLoop p p 0 0 []

/-- At position `i` the string begun starts at or before `i`. -/
theorem stringsLoop_eq {p before rest : Bytes} (hp : p = before ++ rest) {start : ℕ}
    (hstart : start ≤ before.length) (result : List Bytes) :
    stringsLoop p rest before.length start result =
      .ok (result ++ nulFields (before.drop start) rest) := by
  -- On what is left to read, with the bytes before it growing along.
  induction rest generalizing before start result with
  | nil =>
    show Except.ok result = _
    simp [nulFields]
  | cons b rest ih =>
    have hnext : p = (before ++ [b]) ++ rest := by simp [hp]
    have hlength : before.length + 1 = (before ++ [b]).length := by simp
    unfold stringsLoop nulFields
    by_cases hb : b = 0
    -- A terminator: the string from `start` to here is in bounds, and the next begins behind.
    · have hbound : before.length ≤ p.length := by simp [hp]
      have htake : p.take before.length = before := by simp [hp]
      rw [if_pos hb, if_pos hb, range_of_le hstart hbound, htake]
      show stringsLoop p rest (before.length + 1) (before.length + 1) _ = _
      rw [hlength, ih hnext le_rfl, List.drop_length]
      simp
    · have hdrop : (before ++ [b]).drop start = before.drop start ++ [b] :=
        List.drop_append_of_le_length hstart
      rw [if_neg hb, if_neg hb, hlength, ih hnext (by simp; omega), hdrop]

/-- No range of `strings` is out of bounds. -/
theorem strings_eq (p : Bytes) : strings p = MtaHooks.strings p := by
  unfold strings MtaHooks.strings
  have hloop : stringsLoop p p 0 0 [] = .ok (nulFields [] p) :=
    @stringsLoop_eq p [] p rfl 0 le_rfl []
  rw [hloop]

/-! ### Commands -/

/-- The word at position `i` of a negotiation. -/
def word (p : Bytes) (i : ℕ) : Result UInt32 := do
  let bytes ← range p i (i + 4)
  match bytes with
  | [a, b, c, d] => return fromBeBytes a b c d
  | _ => .error (.panic "checked length")

/-- The arm of `O`, with the slices of the payload checked. -/
def decodeNegotiate (p : Bytes) : Result Command := do
  rejectIf (p.length ≠ 12) (.invalid "negotiation length")
  let version ← word p 0
  let actions ← word p 4
  let protocol ← word p 8
  return .negotiate ⟨version, actions, protocol⟩

/-- The port and the address of `C`, with the reads of the tail checked. -/
def decodeAddress (family : UInt8) (tail : Bytes) : Result (Option UInt16 × Option Bytes) := do
  rejectIf (tail.length < 3) (.invalid "connect address")
  let text ← rangeFrom tail 2
  let fields ← strings text
  rejectIf (fields.length ≠ 1) (.invalid "connect address count")
  let address ← index fields 0
  Command.checkClientIp family address
  let hi ← index tail 0
  let lo ← index tail 1
  return (some (hi.toUInt16 <<< 8 ||| lo.toUInt16), some address)

/-- The address for the families that have one. -/
def decodeFamily (family : UInt8) (tail : Bytes) : Result (Option UInt16 × Option Bytes) :=
  if family = byte 'U' ∧ tail = [] then .ok (none, none)
  else if family = byte '4' ∨ family = byte '6' ∨ family = byte 'L' then
    decodeAddress family tail
  else .error (.invalid "connect family or trailing bytes")

/-- The arm of `C`, with the reads behind the host name checked. -/
def decodeConnect (p : Bytes) : Result Command := do
  let stop ← okOr (p.findIdx? (· == 0)) (.invalid "connect hostname")
  let hostname ← range p 0 stop
  let family ← okOr p[stop + 1]? (.invalid "connect family")
  let tail ← rangeFrom p (stop + 2)
  let (port, address) ← decodeFamily family tail
  return .connect ⟨hostname, family, port, address⟩

/-- `chunks_exact(2)`. -/
def pairs : List α → List (List α)
  | a :: b :: rest => [a, b] :: pairs rest
  | _ => []

/-- One pair of a macro definition. -/
def macroPair (values : List (Bytes × Bytes)) (pair : List Bytes) :
    Result (List (Bytes × Bytes)) := do
  let name ← index pair 0
  rejectIf (name = []) (.invalid "empty macro name")
  let value ← index pair 1
  return values ++ [(name, value)]

/-- The arm of `D`, with the reads of the stage and of the pairs checked. -/
def decodeMacro (p : Bytes) : Result Command := do
  let stage ← okOr p.head? (.invalid "macro stage")
  rejectIf (stage ∉ Command.macroStages) (.invalid "macro stage")
  let rest ← rangeFrom p 1
  let fields ← strings rest
  rejectIf (fields.length % 2 ≠ 0) (.invalid "macro pair")
  let values ← (pairs fields).foldlM macroPair []
  return .macros stage values

/-- The arms of `H` and `U`, one string each. -/
def decodeString (make : Bytes → Command) (p : Bytes) : Result Command := do
  let fields ← strings p
  rejectIf (fields.length ≠ 1) (.invalid "string count")
  let (s, _) ← remove fields 0
  return make s

/-- The arms of `M` and `R`, with the read of the address checked. -/
def decodeEnvelope (make : List Bytes → Command) (p : Bytes) : Result Command := do
  let fields ← strings p
  rejectIf (fields.head?.all List.isEmpty) (.invalid "empty envelope")
  return make fields

/-- The arm of `L`, with the reads of both strings checked. -/
def decodeHeader (p : Bytes) : Result Command := do
  let fields ← strings p
  rejectIf (fields.length ≠ 2) (.invalid "header fields")
  let name ← index fields 0
  rejectIf (name = []) (.invalid "header fields")
  let value ← index fields 1
  return .header name value

/-- Read a frame of the MTA. -/
def decode (f : Frame) : Result Command :=
  let p := f.payload
  if f.command = byte 'O' then decodeNegotiate p
  else if f.command = byte 'C' then decodeConnect p
  else if f.command = byte 'D' then decodeMacro p
  else if f.command = byte 'H' then decodeString .helo p
  else if f.command = byte 'U' then decodeString .unknown p
  else if f.command = byte 'M' then decodeEnvelope .mail p
  else if f.command = byte 'R' then decodeEnvelope .recipient p
  else if f.command = byte 'L' then decodeHeader p
  else if f.command = byte 'B' then .ok (.body p)
  else if f.command = byte 'T' then Command.decodeBare .data p
  else if f.command = byte 'N' then Command.decodeBare .endHeaders p
  else if f.command = byte 'E' then Command.decodeBare .endMessage p
  else if f.command = byte 'A' then Command.decodeBare .abort p
  else if f.command = byte 'Q' then Command.decodeBare .quit p
  else if f.command = byte 'K' then Command.decodeBare .quitNewConnection p
  else .error (.invalid "unknown opcode")

/-- The checked arm is the arm of the decoder. -/
theorem decodeNegotiate_eq (p : Bytes) : decodeNegotiate p = Command.decodeNegotiate p := by
  unfold decodeNegotiate Command.decodeNegotiate
  split
  · rfl
  next hp =>
    have hlength : p.length ≠ 12 := by
      intro h
      -- Twelve bytes are the one shape that the total decoder takes.
      match p, h with
      | [a, b, c, d, e, f, g, h, i, j, k, l], _ => exact hp _ _ _ _ _ _ _ _ _ _ _ _ rfl
    rw [rejectIf, if_pos hlength]
    rfl

/-- The checked read of the address is that of the decoder. -/
theorem decodeAddress_eq (family : UInt8) (tail : Bytes) :
    decodeAddress family tail = Command.decodeAddress family tail := by
  unfold decodeAddress Command.decodeAddress
  match tail with
  | [] => rfl
  | [_] => rfl
  | [_, _] => rfl
  | hi :: lo :: x :: rest =>
    have hlength : ¬ (hi :: lo :: x :: rest).length < 3 := by simp
    rw [rejectIf, if_neg hlength, rangeFrom_of_le (by simp)]
    show (strings (x :: rest) >>= _) = (MtaHooks.strings (x :: rest) >>= _)
    rw [strings_eq]
    cases MtaHooks.strings (x :: rest) with
    | error e => rfl
    | ok fields =>
      match fields with
      | [] => rfl
      | [_] => rfl
      | _ :: _ :: _ => rfl

/-- The checked arm is the arm of the decoder. -/
theorem decodeConnect_eq (p : Bytes) : decodeConnect p = Command.decodeConnect p := by
  unfold decodeConnect Command.decodeConnect
  cases hstop : p.findIdx? (· == 0) with
  | none => rfl
  | some stop =>
    -- The position found is one of the payload.
    obtain ⟨hlt, -⟩ := List.findIdx?_eq_some_iff_getElem.mp hstop
    show (range p 0 stop >>= _) = _
    rw [range_of_le (Nat.zero_le _) (Nat.le_of_lt hlt)]
    show (okOr p[stop + 1]? (.invalid "connect family") >>= _) =
      (okOr p[stop + 1]? (.invalid "connect family") >>= _)
    cases hfamily : p[stop + 1]? with
    | none => rfl
    | some family =>
      -- The family byte is there, so the range behind it starts in bounds or at the end.
      obtain ⟨hnext, -⟩ := List.getElem?_eq_some_iff.mp hfamily
      show (rangeFrom p (stop + 2) >>= _) = _
      rw [rangeFrom_of_le hnext]
      show (decodeFamily family (p.drop (stop + 2)) >>= _) = _
      unfold decodeFamily Command.decodeFamily
      rw [decodeAddress_eq]
      rfl

/-- The loop over the pairs appends the pairs. -/
theorem foldlM_macroPair (fields : List Bytes) (values : List (Bytes × Bytes)) :
    (pairs fields).foldlM macroPair values =
      (Command.macroPairs fields >>= fun more => pure (values ++ more)) := by
  induction fields using Command.macroPairs.induct generalizing values with
  | case1 value rest =>
    rfl
  | case2 name value rest hname ih =>
    have hstep : macroPair values [name, value] = .ok (values ++ [(name, value)]) := by
      show (rejectIf (name = []) _ >>= _) = _
      rw [rejectIf, if_neg hname]
      rfl
    have hpairs : Command.macroPairs (name :: value :: rest) =
        (Command.macroPairs rest >>= fun pairs => pure ((name, value) :: pairs)) := by
      rw [Command.macroPairs, if_neg hname]
    rw [hpairs, pairs, List.foldlM_cons, hstep]
    show (pairs rest).foldlM macroPair (values ++ [(name, value)]) = _
    rw [ih]
    cases Command.macroPairs rest with
    | error e => rfl
    | ok more =>
      show Except.ok (values ++ [(name, value)] ++ more) = .ok (values ++ (name, value) :: more)
      rw [List.append_assoc]
      rfl
  | case3 fields hfields =>
    match fields with
    | [] => exact congrArg Except.ok (List.append_nil values).symm
    | [_] => exact congrArg Except.ok (List.append_nil values).symm
    | name :: value :: rest => exact absurd rfl (hfields name value rest)

/-- The checked arm is the arm of the decoder. -/
theorem decodeMacro_eq (p : Bytes) : decodeMacro p = Command.decodeMacro p := by
  cases p with
  | nil => rfl
  | cons stage rest =>
    show (rejectIf (stage ∉ Command.macroStages) _ >>= _) =
      (rejectIf (stage ∉ Command.macroStages) _ >>= _)
    cases rejectIf (stage ∉ Command.macroStages) (.invalid "macro stage") with
    | error e => rfl
    | ok u =>
      show (rangeFrom (stage :: rest) 1 >>= _) = (MtaHooks.strings rest >>= _)
      rw [rangeFrom_of_le (by simp)]
      show (strings rest >>= _) = _
      rw [strings_eq]
      cases MtaHooks.strings rest with
      | error e => rfl
      | ok fields =>
        show (rejectIf (fields.length % 2 ≠ 0) _ >>= _) =
          (rejectIf (fields.length % 2 ≠ 0) _ >>= _)
        cases rejectIf (fields.length % 2 ≠ 0) (.invalid "macro pair") with
        | error e => rfl
        | ok u =>
          show ((pairs fields).foldlM macroPair [] >>= _) = (Command.macroPairs fields >>= _)
          rw [foldlM_macroPair]
          cases Command.macroPairs fields <;> rfl

/-- The checked arm is the arm of the decoder. -/
theorem decodeString_eq (make : Bytes → Command) (p : Bytes) :
    decodeString make p = Command.decodeString make p := by
  unfold decodeString Command.decodeString
  rw [strings_eq]
  cases MtaHooks.strings p with
  | error e => rfl
  | ok fields =>
    match fields with
    | [] => rfl
    | [_] => rfl
    | _ :: _ :: _ => rfl

/-- The checked arm is the arm of the decoder. -/
theorem decodeEnvelope_eq (make : List Bytes → Command) (p : Bytes) :
    decodeEnvelope make p = Command.decodeEnvelope make p := by
  unfold decodeEnvelope Command.decodeEnvelope
  rw [strings_eq]
  cases MtaHooks.strings p with
  | error e => rfl
  | ok fields =>
    match fields with
    | [] => rfl
    | [] :: _ => rfl
    | (_ :: _) :: _ => rfl

/-- The checked arm is the arm of the decoder. -/
theorem decodeHeader_eq (p : Bytes) : decodeHeader p = Command.decodeHeader p := by
  unfold decodeHeader Command.decodeHeader
  rw [strings_eq]
  cases MtaHooks.strings p with
  | error e => rfl
  | ok fields =>
    match fields with
    | [] => rfl
    | [_] => rfl
    | [[], _] => rfl
    | [_ :: _, _] => rfl
    | _ :: _ :: _ :: _ => rfl

/-- **No index of the decoder is out of bounds.** -/
theorem decode_eq (f : Frame) : decode f = Command.decode f := by
  simp only [decode, Command.decode, decodeNegotiate_eq, decodeConnect_eq, decodeMacro_eq,
    decodeString_eq, decodeEnvelope_eq, decodeHeader_eq]

/-! ### Header values -/

/-- The character at position `i`, a CRLF read as its LF: the character and its last
    position. -/
def headerValueChar (bytes : Bytes) (i : ℕ) : Result (UInt8 × ℕ) := do
  let c ← index bytes i
  if c = byte '\r' then
    if bytes[i + 1]? = some (byte '\n') then return (byte '\n', i + 1)
    else .error (.invalid "header folding")
  else return (c, i)

/-- The loop of `header_value` from position `i`. -/
def headerValueFrom (bytes : Bytes) : ℕ → ℕ → Result Unit
  | 0, _ => .error (.panic "fuel")
  | fuel + 1, i =>
    if i < bytes.length then do
      let (c, i) ← headerValueChar bytes i
      if c = byte '\n' then
        rejectIf (¬ (bytes[i + 1]? = some (byte ' ') ∨ bytes[i + 1]? = some (byte '\t')))
          (.invalid "header folding")
      else rejectIf ((c < 32 ∧ c ≠ byte '\t') ∨ c = 127) (.invalid "header control character")
      headerValueFrom bytes fuel (i + 1)
    else .ok ()

/-- Permit folding, but never a new field or a bare CR. -/
def headerValue (value : Str) : Result Unit := headerValueFrom value (value.length + 1) 0

/-- The test of what follows a line end, and the loop after it. -/
theorem rejectIf_fold (after : Bytes) :
    (rejectIf (¬ (after[0]? = some (byte ' ') ∨ after[0]? = some (byte '\t')))
      (.invalid "header folding") >>= fun _ => headerValueLoop after) =
      match after with
      | fold :: rest =>
        if fold = byte ' ' ∨ fold = byte '\t' then headerValueLoop (fold :: rest)
        else .error (.invalid "header folding")
      | [] => .error (.invalid "header folding") := by
  cases after with
  | nil => rfl
  | cons fold rest =>
    have hiff : ((fold :: rest)[0]? = some (byte ' ') ∨ (fold :: rest)[0]? = some (byte '\t')) ↔
        fold = byte ' ' ∨ fold = byte '\t' := by simp
    simp only [hiff]
    by_cases hfold : fold = byte ' ' ∨ fold = byte '\t'
    · rw [rejectIf, if_neg (not_not.mpr hfold), if_pos hfold]
      rfl
    · rw [rejectIf, if_pos hfold, if_neg hfold]
      rfl

/-- The checked loop over the value, from any position in it, is that of the decoder. -/
theorem headerValueFrom_eq {bytes before rest : Bytes} (hbytes : bytes = before ++ rest)
    {fuel : ℕ} (hfuel : rest.length < fuel) :
    headerValueFrom bytes fuel before.length = headerValueLoop rest := by
  induction fuel generalizing before rest with
  | zero => exact absurd hfuel (Nat.not_lt_zero _)
  | succ fuel ih =>
    -- An index into the whole value is an index into what is left of it.
    have hat : ∀ k, bytes[before.length + k]? = rest[k]? := by
      intro k
      rw [hbytes, List.getElem?_append_right (Nat.le_add_right _ _), Nat.add_sub_cancel_left]
    unfold headerValueFrom
    cases rest with
    | nil =>
      rw [if_neg (by simp [hbytes])]
      rfl
    | cons c rest =>
      have hlt : before.length < bytes.length := by simp [hbytes]
      have hc : index bytes before.length = .ok c := by
        rw [index, show bytes[before.length]? = some c from hat 0]
        rfl
      have h1 : bytes[before.length + 1]? = rest[0]? := hat 1
      have h2 : bytes[before.length + 1 + 1]? = rest[1]? := hat 2
      rw [List.length_cons] at hfuel
      have hone : headerValueFrom bytes fuel (before.length + 1) = headerValueLoop rest := by
        have hloop : headerValueFrom bytes fuel (before ++ [c]).length = headerValueLoop rest :=
          ih (by simp [hbytes]) (by omega)
        rwa [List.length_append] at hloop
      -- A CRLF takes two bytes at once, so the hypothesis is needed for either step.
      have htwo : ∀ lf after, rest = lf :: after →
          headerValueFrom bytes fuel (before.length + 1 + 1) = headerValueLoop after := by
        rintro lf after rfl
        rw [List.length_cons] at hfuel
        have hloop :
            headerValueFrom bytes fuel (before ++ [c, lf]).length = headerValueLoop after :=
          ih (by simp [hbytes]) (by omega)
        rwa [List.length_append] at hloop
      rw [if_pos hlt, headerValueChar, hc]
      dsimp only [bind, Except.bind]
      unfold headerValueLoop
      by_cases hcr : c = byte '\r'
      · rw [if_pos hcr, if_pos hcr, h1]
        match rest, h2, htwo with
        | [], _, _ => rfl
        | lf :: after, h2, htwo =>
          by_cases hlf : lf = byte '\n'
          · subst hlf
            show (rejectIf (¬ (bytes[before.length + 1 + 1]? = some (byte ' ') ∨
              bytes[before.length + 1 + 1]? = some (byte '\t'))) (.invalid "header folding") >>=
                fun _ => headerValueFrom bytes fuel (before.length + 1 + 1)) = _
            rw [h2, htwo _ after rfl]
            refine (rejectIf_fold after).trans ?_
            cases after <;> rfl
          -- A bare CR is an error in both, however much follows it.
          · have hne : ¬ (lf :: after)[0]? = some (byte '\n') := by simpa using hlf
            rw [if_neg hne]
            cases after with
            | nil => rfl
            | cons fold after => exact (if_pos hlf).symm
      -- No CR: the character stands at its own position.
      · rw [if_neg hcr, if_neg hcr]
        show (if c = byte '\n' then _ else _) = _
        by_cases hlf : c = byte '\n'
        · rw [if_pos hlf, if_pos hlf, h1, hone]
          refine (rejectIf_fold rest).trans ?_
          cases rest <;> rfl
        · rw [if_neg hlf, if_neg hlf, hone]
          by_cases hcontrol : (c < 32 ∧ c ≠ byte '\t') ∨ c = 127
          · rw [rejectIf, if_pos hcontrol, if_pos hcontrol]
          · rw [rejectIf, if_neg hcontrol, if_neg hcontrol]

/-- **No index of `header_value` is out of bounds.** -/
theorem headerValue_eq (value : Str) : headerValue value = MtaHooks.headerValue value :=
  @headerValueFrom_eq value [] value rfl _ (Nat.lt_succ_self _)

end Checked

/-! ### Decoding does not panic -/

namespace Result.FailsWith

variable {α : Type} {E : Error → Prop}

/-- A missing value is no panic. -/
theorem okOr (o : Option α) {e : Error} (he : E e) : Result.FailsWith E (MtaHooks.okOr o e) := by
  cases o with
  | none => exact .error he
  | some a => exact .ok a

/-- A refusal is no panic. -/
theorem rejectIf (c : Prop) [Decidable c] {e : Error} (he : E e) :
    Result.FailsWith E (MtaHooks.rejectIf c e) :=
  .ite (fun _ => .error he) fun _ => .ok ()

end Result.FailsWith

/-- The reader of the strings does not panic. -/
theorem strings_safe (p : Bytes) : (strings p).Safe :=
  .ite (fun _ => .ok _) fun _ => .ite (fun _ => .error rfl) fun _ => .ok _

namespace Command

/-- The arm of `O` does not panic. -/
theorem decodeNegotiate_safe (p : Bytes) : (decodeNegotiate p).Safe := by
  unfold decodeNegotiate
  split
  · exact .ok _
  · exact .error rfl

/-- The arm of `C` does not panic. -/
theorem decodeConnect_safe (p : Bytes) : (decodeConnect p).Safe := by
  have hip : ∀ address, (parseClientIp address).Safe :=
    fun _ => .ite (fun _ => .okOr _ rfl) fun _ => .error rfl
  have hcheck : ∀ family address, (checkClientIp family address).Safe :=
    fun family address => .ite (fun _ => .ok _) fun _ => .bind (hip address) fun _ =>
      .ite (fun _ => .ok _) fun _ => .error rfl
  have haddress : ∀ family tail, (decodeAddress family tail).Safe := by
    intro family tail
    unfold decodeAddress
    split
    · refine .bind (strings_safe _) fun fields => ?_
      split
      · exact .bind (hcheck _ _) fun _ => .pure _
      · exact .error rfl
    · exact .error rfl
  have hfamily : ∀ family tail, (decodeFamily family tail).Safe :=
    fun family tail => .ite (fun _ => .ok _) fun _ => .ite (fun _ => haddress family tail) fun _ =>
      .error rfl
  exact .bind (.okOr _ rfl) fun _ => .bind (.okOr _ rfl) fun _ => .bind (hfamily _ _) fun _ =>
    .pure _

/-- The arm of `D` does not panic. -/
theorem decodeMacro_safe (p : Bytes) : (decodeMacro p).Safe := by
  have hpairs : ∀ fields, (macroPairs fields).Safe := by
    intro fields
    induction fields using macroPairs.induct with
    | case1 value rest => exact .error rfl
    | case2 name value rest hname ih =>
      rw [macroPairs, if_neg hname]
      exact .bind ih fun _ => .pure _
    | case3 fields hfields =>
      unfold macroPairs
      split
      · exact absurd rfl (hfields _ _ _)
      · exact .ok _
  unfold decodeMacro
  split
  · exact .error rfl
  · exact .bind (.rejectIf _ rfl) fun _ => .bind (strings_safe _) fun _ =>
      .bind (.rejectIf _ rfl) fun _ => .bind (hpairs _) fun _ => .pure _

/-- The arms of one string do not panic. -/
theorem decodeString_safe (make : Bytes → Command) (p : Bytes) : (decodeString make p).Safe := by
  refine .bind (strings_safe p) fun fields => ?_
  split
  · exact .ok _
  · exact .error rfl

/-- The arms of the envelope do not panic. -/
theorem decodeEnvelope_safe (make : List Bytes → Command) (p : Bytes) :
    (decodeEnvelope make p).Safe := by
  refine .bind (strings_safe p) fun fields => ?_
  split
  · exact .ok _
  · exact .error rfl

/-- The arm of `L` does not panic. -/
theorem decodeHeader_safe (p : Bytes) : (decodeHeader p).Safe := by
  refine .bind (strings_safe p) fun fields => ?_
  split
  · exact .ite (fun _ => .error rfl) fun _ => .ok _
  · exact .error rfl

/-- The arms without a payload do not panic. -/
theorem decodeBare_safe (command : Command) (p : Bytes) : (decodeBare command p).Safe :=
  .ite (fun _ => .ok _) fun _ => .error rfl

/-- **Decoding refuses or accepts.** -/
theorem decode_safe (f : Frame) : (decode f).Safe :=
  .ite (fun _ => decodeNegotiate_safe _) fun _ => .ite (fun _ => decodeConnect_safe _) fun _ =>
    .ite (fun _ => decodeMacro_safe _) fun _ => .ite (fun _ => decodeString_safe _ _) fun _ =>
    .ite (fun _ => decodeString_safe _ _) fun _ => .ite (fun _ => decodeEnvelope_safe _ _) fun _ =>
    .ite (fun _ => decodeEnvelope_safe _ _) fun _ => .ite (fun _ => decodeHeader_safe _) fun _ =>
    .ite (fun _ => .ok _) fun _ => .ite (fun _ => decodeBare_safe _ _) fun _ =>
    .ite (fun _ => decodeBare_safe _ _) fun _ => .ite (fun _ => decodeBare_safe _ _) fun _ =>
    .ite (fun _ => decodeBare_safe _ _) fun _ => .ite (fun _ => decodeBare_safe _ _) fun _ =>
    .ite (fun _ => decodeBare_safe _ _) fun _ => .error rfl

end Command

end MtaHooks
