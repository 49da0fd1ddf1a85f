import MtaHooks.Protocol.Codec
import MtaHooks.Protocol.Command

namespace MtaHooks

/-!
# The grammar of MTA commands

`Command.encode` writes a command as a frame and `Command.Valid` says which commands the
milter protocol has.

* `decode_eq_ok` — a frame decodes to a command exactly when the command is valid and the
  frame is its encoding.
-/

namespace Command

/-! ### The encoder -/

/-- Family, port and address of a client. -/
def familyPayload (info : Connection) : Bytes :=
  info.family :: match info.port, info.address with
    | some port, some address => portBytes port ++ (address ++ [0])
    | _, _ => []

/-- The payload of a command. -/
def payload : Command → Bytes
  | .negotiate o => toBeBytes o.version ++ (toBeBytes o.actions ++ toBeBytes o.protocol)
  | .connect info => info.hostname ++ 0 :: familyPayload info
  | .macros stage values => stage :: terminated (values.flatMap fun v => [v.1, v.2])
  | .helo s | .unknown s => terminated [s]
  | .mail fields | .recipient fields => terminated fields
  | .header name value => terminated [name, value]
  | .body chunk => chunk
  | .data | .endHeaders | .endMessage | .abort | .quit | .quitNewConnection => []

/-- The frame of a command. -/
def encode (c : Command) : Frame := ⟨c.opcode, c.payload⟩

/-! ### Valid commands -/

/-- A string without NUL. -/
def NulFree (s : Bytes) : Prop := (0 : UInt8) ∉ s

/-- A client address without an `IPv6:` in front and brackets around it. -/
def clientText (address : Bytes) : Str :=
  let text := (stripPrefix "IPv6:" address).getD address
  ((stripPrefix "[" text).bind (stripSuffix "]")).getD text

/-- The address spells an IP of family `4` or `6`; any address will do in family `L`. -/
def SpellsClient (family : UInt8) (address : Bytes) : Prop :=
  family = byte 'L' ∨ (family = byte '4' ∨ family = byte '6') ∧ isUtf8 address = true ∧
    ∃ ip, parseIpAddr (clientText address) = some ip ∧ (ip.isIpv4 = true ↔ family = byte '4')

/-- The clients of the protocol: unknown, or with port and address. -/
inductive IsClient : Connection → Prop
  | unknown {hostname : Bytes} (hname : NulFree hostname) :
    IsClient ⟨hostname, byte 'U', none, none⟩
  | address {hostname : Bytes} {family : UInt8} {port : UInt16} {address : Bytes}
      (hname : NulFree hostname) (haddress : NulFree address)
      (hspells : SpellsClient family address) :
    IsClient ⟨hostname, family, some port, some address⟩

/-- The fields of an envelope command: an address and parameters. -/
def IsEnvelope (fields : List Bytes) : Prop :=
  (∃ address parameters, address ≠ [] ∧ fields = address :: parameters) ∧ ∀ s ∈ fields, NulFree s

/-- The commands of the protocol. -/
def Valid : Command → Prop
  | .connect info => IsClient info
  | .macros stage values =>
    stage ∈ macroStages ∧ ∀ v ∈ values, v.1 ≠ [] ∧ NulFree v.1 ∧ NulFree v.2
  | .helo s | .unknown s => NulFree s
  | .mail fields | .recipient fields => IsEnvelope fields
  | .header name value => name ≠ [] ∧ NulFree name ∧ NulFree value
  | _ => True

/-! ### The field decoders -/

/-- The payload of a negotiation. -/
theorem decodeNegotiate_iff {p : Bytes} {o : Options} :
    decodeNegotiate p = .ok (.negotiate o) ↔ p = payload (.negotiate o) := by
  unfold decodeNegotiate
  constructor
  · intro h
    -- Twelve bytes, three words: each word is written back as it was read.
    split at h
    · obtain rfl := Command.negotiate.inj (Except.ok.inj h)
      simp only [payload, toBeBytes_fromBeBytes]
      rfl
    · exact nomatch h
  · rintro rfl
    show Except.ok (Command.negotiate ⟨_, _, _⟩) = _
    rw [fromBeBytes_toBeBytes (n := o.version) rfl, fromBeBytes_toBeBytes (n := o.actions) rfl,
      fromBeBytes_toBeBytes (n := o.protocol) rfl]

/-- The payload of a command with one string. -/
theorem decodeString_iff {make : Bytes → Command} (hmake : Function.Injective make) {p s : Bytes} :
    decodeString make p = .ok (make s) ↔ NulFree s ∧ p = terminated [s] := by
  unfold decodeString
  rw [Result.bind_ok_iff]
  constructor
  · rintro ⟨fields, hfields, h⟩
    obtain ⟨rfl, hfree⟩ := strings_eq_ok.mp hfields
    split at h
    · obtain rfl := hmake (Except.ok.inj h)
      exact ⟨hfree _ List.mem_cons_self, rfl⟩
    · exact nomatch h
  · rintro ⟨hfree, rfl⟩
    refine ⟨[s], strings_eq_ok.mpr ⟨rfl, fun v hv => ?_⟩, rfl⟩
    rw [List.mem_singleton.mp hv]
    exact hfree

/-- The payload of an envelope command. -/
theorem decodeEnvelope_iff {make : List Bytes → Command} (hmake : Function.Injective make)
    {p : Bytes} {fields : List Bytes} :
    decodeEnvelope make p = .ok (make fields) ↔ IsEnvelope fields ∧ p = terminated fields := by
  unfold decodeEnvelope
  rw [Result.bind_ok_iff]
  constructor
  · rintro ⟨fields', hfields, h⟩
    obtain ⟨rfl, hfree⟩ := strings_eq_ok.mp hfields
    split at h
    · obtain rfl := hmake (Except.ok.inj h)
      exact ⟨⟨⟨_, _, List.cons_ne_nil _ _, rfl⟩, hfree⟩, rfl⟩
    · exact nomatch h
  · rintro ⟨⟨⟨address, parameters, hne, rfl⟩, hfree⟩, rfl⟩
    refine ⟨_, strings_eq_ok.mpr ⟨rfl, hfree⟩, ?_⟩
    cases address with
    | nil => exact absurd rfl hne
    | cons c address => rfl

/-- The payload of a header. -/
theorem decodeHeader_iff {p name value : Bytes} :
    decodeHeader p = .ok (.header name value) ↔
      (name ≠ [] ∧ NulFree name ∧ NulFree value) ∧ p = terminated [name, value] := by
  unfold decodeHeader
  rw [Result.bind_ok_iff]
  constructor
  · rintro ⟨fields, hfields, h⟩
    obtain ⟨rfl, hfree⟩ := strings_eq_ok.mp hfields
    split at h
    · rcases Result.ite_ok h with ⟨-, h⟩ | ⟨hne, h⟩
      · exact nomatch h
      · obtain ⟨rfl, rfl⟩ := Command.header.inj (Except.ok.inj h)
        exact ⟨⟨hne, hfree _ List.mem_cons_self,
          hfree _ (List.mem_cons_of_mem _ List.mem_cons_self)⟩,
          rfl⟩
    · exact nomatch h
  · rintro ⟨⟨hne, hname, hvalue⟩, rfl⟩
    refine ⟨[name, value], strings_eq_ok.mpr ⟨rfl, fun v hv => ?_⟩, ?_⟩
    · rcases List.mem_cons.mp hv with rfl | hv
      · exact hname
      · rw [List.mem_singleton.mp hv]
        exact hvalue
    · show (if name = [] then _ else _) = _
      rw [if_neg hne]

/-- The payload of a bare command. -/
theorem decodeBare_iff {c : Command} {p : Bytes} : decodeBare c p = .ok c ↔ p = [] := by
  unfold decodeBare
  by_cases hp : p = []
  · simp [hp]
  · simp [hp]

/-! ### Macros -/

/-- An even number of fields are names and values. -/
theorem macroPairs_iff {fields : List Bytes} {values : List (Bytes × Bytes)}
    (heven : fields.length % 2 = 0) :
    macroPairs fields = .ok values ↔
      fields = values.flatMap (fun v => [v.1, v.2]) ∧ ∀ v ∈ values, v.1 ≠ [] := by
  induction fields using macroPairs.induct generalizing values with
  | case1 value rest =>
    -- a batch with an unnamed macro is refused, and no valid batch begins with one
    have hrefused : macroPairs ([] :: value :: rest) = .error (.invalid "empty macro name") := rfl
    rw [hrefused]
    constructor
    · intro h
      exact nomatch h
    · rintro ⟨h, hnames⟩
      cases values with
      | nil => exact nomatch h
      | cons v values =>
        rw [List.flatMap_cons] at h
        exact absurd (List.cons.inj h).1.symm (hnames v List.mem_cons_self)
  | case2 name value rest hname ih =>
    have hrest : rest.length % 2 = 0 := by
      simp only [List.length_cons] at heven
      omega
    unfold macroPairs
    rw [if_neg hname, Result.bind_ok_iff]
    constructor
    · rintro ⟨pairs, hpairs, h⟩
      obtain ⟨hfields, hnames⟩ := (ih hrest).mp hpairs
      obtain rfl := Except.ok.inj h
      rw [hfields]
      refine ⟨rfl, fun v hv => ?_⟩
      rcases List.mem_cons.mp hv with rfl | hv
      · exact hname
      · exact hnames v hv
    · rintro ⟨h, hnames⟩
      cases values with
      | nil => exact nomatch h
      | cons v values =>
        obtain ⟨macroName, macroValue⟩ := v
        rw [List.flatMap_cons] at h
        obtain ⟨rfl, h⟩ := List.cons.inj h
        obtain ⟨rfl, rfl⟩ := List.cons.inj h
        have hlater : ∀ w ∈ values, w.1 ≠ [] := fun w hw => hnames w (List.mem_cons_of_mem _ hw)
        exact ⟨values, (ih hrest).mpr ⟨rfl, hlater⟩, rfl⟩
  | case3 rest hshort =>
    have hnil : rest = [] := by
      match rest with
      | [] => rfl
      | [_] => exact nomatch heven
      | name :: value :: rest => exact absurd rfl (hshort name value rest)
    subst hnil
    show Except.ok [] = _ ↔ _
    cases values with
    | nil => simp
    | cons v values => simp

/-- A value is two fields. -/
theorem length_pairs (values : List (Bytes × Bytes)) :
    (values.flatMap fun v => [v.1, v.2]).length = 2 * values.length := by
  induction values with
  | nil => rfl
  | cons v values ih =>
    rw [List.flatMap_cons, List.length_append, ih]
    simp only [List.length_cons, List.length_nil]
    omega

/-- The payload of macros. -/
theorem decodeMacro_iff {p : Bytes} {stage : UInt8} {values : List (Bytes × Bytes)} :
    decodeMacro p = .ok (.macros stage values) ↔
      (Valid (.macros stage values)) ∧ p = payload (.macros stage values) := by
  cases p with
  | nil => simp [decodeMacro, payload]
  | cons first rest =>
    unfold decodeMacro
    simp only [Result.bind_ok_iff, rejectIf_eq_ok, not_not]
    constructor
    · rintro ⟨-, hstage, fields, hfields, -, heven, pairs, hpairs, h⟩
      obtain ⟨rfl, rfl⟩ := Command.macros.inj (Except.ok.inj h)
      obtain ⟨rfl, hfree⟩ := strings_eq_ok.mp hfields
      obtain ⟨rfl, hnames⟩ := (macroPairs_iff heven).mp hpairs
      refine ⟨⟨hstage, fun v hv => ⟨hnames v hv, ?_, ?_⟩⟩, rfl⟩
      · exact hfree _ (List.mem_flatMap.mpr ⟨v, hv, List.mem_cons_self⟩)
      · exact hfree _ (List.mem_flatMap.mpr ⟨v, hv, List.mem_cons_of_mem _ List.mem_cons_self⟩)
    · rintro ⟨⟨hstage, hvalues⟩, h⟩
      obtain ⟨rfl, rfl⟩ := List.cons.inj h
      have heven : (values.flatMap fun v => [v.1, v.2]).length % 2 = 0 := by
        rw [length_pairs]
        omega
      have hfree : ∀ s ∈ values.flatMap (fun v => [v.1, v.2]), NulFree s := by
        intro s hs
        obtain ⟨v, hv, hs⟩ := List.mem_flatMap.mp hs
        obtain ⟨-, hname, hvalue⟩ := hvalues v hv
        rcases List.mem_cons.mp hs with rfl | hs
        · exact hname
        · rw [List.mem_singleton.mp hs]
          exact hvalue
      exact ⟨(), hstage, _, strings_eq_ok.mpr ⟨rfl, hfree⟩, (), heven, values,
        (macroPairs_iff heven).mpr ⟨rfl, fun v hv => (hvalues v hv).1⟩, rfl⟩

/-! ### Clients -/

/-- The accepted addresses of a client. -/
theorem parseClientIp_eq_ok {address : Bytes} {ip : IpAddr} :
    parseClientIp address = .ok ip ↔
      isUtf8 address = true ∧ parseIpAddr (clientText address) = some ip := by
  unfold parseClientIp
  by_cases hutf8 : isUtf8 address = true
  · simp only [hutf8, if_true, true_and]
    exact okOr_eq_ok
  · simp [hutf8]

/-- The check of a client address, in the families that have one. -/
theorem checkClientIp_iff {family : UInt8} {address : Bytes}
    (hfamily : family = byte '4' ∨ family = byte '6' ∨ family = byte 'L') :
    checkClientIp family address = .ok () ↔ SpellsClient family address := by
  unfold checkClientIp SpellsClient
  by_cases hl : family = byte 'L'
  · simp [hl]
  rw [if_neg hl, Result.bind_ok_iff]
  have hip : family = byte '4' ∨ family = byte '6' := by
    rcases hfamily with h | h | h
    · exact .inl h
    · exact .inr h
    · exact absurd h hl
  -- The source compares two booleans, the grammar states an equivalence.
  have hmatch : ∀ ip : IpAddr,
      (family == byte '4') = ip.isIpv4 ↔ (ip.isIpv4 = true ↔ family = byte '4') := by
    intro ip
    by_cases h4 : family = byte '4'
    · rw [beq_iff_eq.mpr h4, iff_true_right h4, eq_comm]
    · rw [beq_eq_false_iff_ne.mpr h4, iff_false_right h4, Bool.not_eq_true, eq_comm]
  constructor
  · rintro ⟨ip, hparse, h⟩
    obtain ⟨hutf8, htext⟩ := parseClientIp_eq_ok.mp hparse
    split at h
    · rename_i hversion
      exact .inr ⟨hip, hutf8, ip, htext, (hmatch ip).mp hversion⟩
    · exact nomatch h
  · rintro (h | ⟨-, hutf8, ip, htext, hversion⟩)
    · exact absurd h hl
    · refine ⟨ip, parseClientIp_eq_ok.mpr ⟨hutf8, htext⟩, ?_⟩
      rw [if_pos ((hmatch ip).mpr hversion)]

/-- The address of a family that has one. -/
theorem decodeAddress_iff {family : UInt8} {tail : Bytes} {port : Option UInt16}
    {address : Option Bytes}
    (hfamily : family = byte '4' ∨ family = byte '6' ∨ family = byte 'L') :
    decodeAddress family tail = .ok (port, address) ↔
      ∃ n a, port = some n ∧ address = some a ∧ tail = portBytes n ++ (a ++ [0]) ∧
        NulFree a ∧ SpellsClient family a := by
  constructor
  · intro h
    unfold decodeAddress at h
    split at h
    · obtain ⟨fields, hfields, h⟩ := Result.bind_ok_iff.mp h
      split at h
      · obtain ⟨_, hcheck, h⟩ := Result.bind_ok_iff.mp h
        obtain ⟨rfl, rfl⟩ := Prod.mk.inj (Except.ok.inj h)
        obtain ⟨heq, hfree⟩ := strings_eq_ok.mp hfields
        refine ⟨_, _, rfl, rfl, ?_, hfree _ List.mem_cons_self,
          (checkClientIp_iff hfamily).mp hcheck⟩
        rw [portBytes_eq_iff.mpr rfl, heq]
        simp
      · exact nomatch h
    · exact nomatch h
  · rintro ⟨n, a, rfl, rfl, rfl, hfree, hspells⟩
    -- With its terminator the address has a byte, which the length check asks for.
    obtain ⟨x, rest, hsome⟩ : ∃ x rest, a ++ [0] = x :: rest := by
      cases a with
      | nil => exact ⟨_, _, rfl⟩
      | cons x a => exact ⟨_, _, rfl⟩
    have hfields : strings (x :: rest) = .ok [a] := by
      refine strings_eq_ok.mpr ⟨?_, fun v hv => ?_⟩
      · rw [← hsome]
        simp
      · rw [List.mem_singleton.mp hv]
        exact hfree
    rw [hsome]
    unfold decodeAddress portBytes
    simp only [List.cons_append, List.nil_append, hfields]
    refine Result.bind_ok_iff.mpr ⟨[a], rfl, ?_⟩
    refine Result.bind_ok_iff.mpr ⟨(), (checkClientIp_iff hfamily).mpr hspells, ?_⟩
    have hport := portBytes_eq_iff.mp (rfl : portBytes n = [_, _])
    simp only [hport]
    rfl

/-- The address of a client, by its family. -/
theorem decodeFamily_iff {family : UInt8} {tail : Bytes} {port : Option UInt16}
    {address : Option Bytes} :
    decodeFamily family tail = .ok (port, address) ↔
      (family = byte 'U' ∧ port = none ∧ address = none ∧ tail = []) ∨
        ∃ n a, port = some n ∧ address = some a ∧ tail = portBytes n ++ (a ++ [0]) ∧
          NulFree a ∧ SpellsClient family a := by
  -- Only three families spell an address at all.
  have hspelt : ∀ a, SpellsClient family a →
      family = byte '4' ∨ family = byte '6' ∨ family = byte 'L' := by
    rintro a (h | ⟨h | h, -⟩)
    · exact .inr (.inr h)
    · exact .inl h
    · exact .inr (.inl h)
  unfold decodeFamily
  constructor
  · intro h
    rcases Result.ite_ok h with ⟨⟨hfamily, htail⟩, h⟩ | ⟨-, h⟩
    · obtain ⟨rfl, rfl⟩ := Prod.mk.inj (Except.ok.inj h)
      exact .inl ⟨hfamily, rfl, rfl, htail⟩
    rcases Result.ite_ok h with ⟨hfamily, h⟩ | ⟨-, h⟩
    · exact .inr ((decodeAddress_iff hfamily).mp h)
    · exact nomatch h
  · rintro (⟨hfamily, rfl, rfl, htail⟩ | ⟨n, a, rfl, rfl, htail, hfree, hspells⟩)
    · rw [if_pos ⟨hfamily, htail⟩]
    · have hfamily := hspelt a hspells
      have hnonempty : tail ≠ [] := by
        rw [htail]
        exact List.cons_ne_nil _ _
      rw [if_neg fun h => hnonempty h.2, if_pos hfamily]
      exact (decodeAddress_iff hfamily).mpr ⟨n, a, rfl, rfl, htail, hfree, hspells⟩

/-- The byte behind a separator. -/
theorem getElem?_behind {front back : Bytes} {c : UInt8} :
    (front ++ c :: back)[front.length + 1]? = back.head? := by
  rw [List.getElem?_append_right (Nat.le_add_right ..), Nat.add_sub_cancel_left,
    List.getElem?_cons_succ, List.head?_eq_getElem?]

/-- What is behind a part and two bytes. -/
theorem drop_behind {front back : Bytes} {c d : UInt8} :
    (front ++ c :: d :: back).drop (front.length + 2) = back := by
  rw [← List.drop_drop, List.drop_left]
  rfl

/-- The payload of a CONNECT. -/
theorem decodeConnect_iff {p : Bytes} {info : Connection} :
    decodeConnect p = .ok (.connect info) ↔ IsClient info ∧ p = payload (.connect info) := by
  unfold decodeConnect
  simp only [Result.bind_ok_iff, okOr_eq_ok]
  constructor
  · rintro ⟨stop, hstop, family, hfamily, ⟨port, address⟩, htail, h⟩
    obtain rfl := Command.connect.inj (Except.ok.inj h)
    obtain ⟨hostname, after, rfl, hfree, rfl⟩ := findIdx?_byte.mp hstop
    rw [List.take_left]
    -- the family is the first byte behind the hostname, the rest is what its decoder reads
    have hafter : after = family :: (hostname ++ 0 :: after).drop (hostname.length + 2) := by
      rw [getElem?_behind] at hfamily
      cases after with
      | nil => exact nomatch hfamily
      | cons c after =>
        rw [← Option.some.inj hfamily, drop_behind]
    rcases decodeFamily_iff.mp htail with
      ⟨rfl, rfl, rfl, hrest⟩ | ⟨n, a, rfl, rfl, hrest, ha, hspells⟩
    · refine ⟨.unknown hfree, ?_⟩
      rw [hafter, hrest]
      rfl
    · refine ⟨.address hfree ha hspells, ?_⟩
      rw [hafter, hrest]
      rfl
  · rintro ⟨hclient, rfl⟩
    have hfree : NulFree info.hostname := by
      cases hclient with
      | unknown hname => exact hname
      | address hname => exact hname
    obtain ⟨tail, htail⟩ : ∃ tail, familyPayload info = info.family :: tail := ⟨_, rfl⟩
    have hpayload : payload (.connect info) = info.hostname ++ 0 :: info.family :: tail := by
      rw [← htail]
      rfl
    rw [hpayload]
    refine ⟨_, findIdx?_byte.mpr ⟨info.hostname, _, rfl, hfree, rfl⟩, info.family, ?_,
      (info.port, info.address), ?_, ?_⟩
    · rw [getElem?_behind]
      rfl
    · rw [drop_behind]
      refine decodeFamily_iff.mpr ?_
      cases hclient with
      | unknown hname => exact .inl ⟨rfl, rfl, rfl, (List.cons.inj htail).2.symm⟩
      | address hname haddress hspells =>
        exact .inr ⟨_, _, rfl, rfl, (List.cons.inj htail).2.symm, haddress, hspells⟩
    · rw [List.take_left]
      rfl

/-! ### The grammar -/

/-- **Decoding is lossless and accepts exactly the grammar.** -/
theorem decode_eq_ok {f : Frame} {c : Command} : decode f = .ok c ↔ c.Valid ∧ f = c.encode := by
  have hframe : f = c.encode ↔ f.command = c.opcode ∧ f.payload = c.payload := by
    constructor
    · rintro rfl
      exact ⟨rfl, rfl⟩
    · rintro ⟨hopcode, hpayload⟩
      cases f
      exact congrArg₂ Frame.mk hopcode hpayload
  rw [hframe, and_left_comm]
  -- a decoded frame has the opcode of its command, which selects the decoder of the fields
  have hopcode : decode f = .ok c ↔
      f.command = c.opcode ∧ decode ⟨c.opcode, f.payload⟩ = .ok c := by
    constructor
    · intro h
      have hcommand : f.command = c.opcode := decode_opcode h
      exact ⟨hcommand, hcommand ▸ h⟩
    · rintro ⟨hcommand, h⟩
      rw [← hcommand] at h
      exact h
  rw [hopcode]
  refine and_congr_right fun _ => ?_
  -- One decoder for each opcode, so one grammar for each command.
  cases c with
  | negotiate o => exact decodeNegotiate_iff.trans (iff_of_eq (true_and _)).symm
  | connect info => exact decodeConnect_iff
  | macros stage values => exact decodeMacro_iff
  | helo s => exact decodeString_iff fun _ _ => Command.helo.inj
  | mail fields => exact decodeEnvelope_iff fun _ _ => Command.mail.inj
  | recipient fields => exact decodeEnvelope_iff fun _ _ => Command.recipient.inj
  | data => exact decodeBare_iff.trans (iff_of_eq (true_and _)).symm
  | header name value => exact decodeHeader_iff
  | endHeaders => exact decodeBare_iff.trans (iff_of_eq (true_and _)).symm
  | body chunk =>
    show Except.ok (Command.body f.payload) = _ ↔ _
    simp [Valid, payload]
  | endMessage => exact decodeBare_iff.trans (iff_of_eq (true_and _)).symm
  | abort => exact decodeBare_iff.trans (iff_of_eq (true_and _)).symm
  | quit => exact decodeBare_iff.trans (iff_of_eq (true_and _)).symm
  | quitNewConnection => exact decodeBare_iff.trans (iff_of_eq (true_and _)).symm
  | unknown s => exact decodeString_iff fun _ _ => Command.unknown.inj

end Command

end MtaHooks
