import MtaHooks.Hooks.Mta
import MtaHooks.Protocol.Grammar
import MtaHooks.Session.History

namespace MtaHooks

open FallibleState

/-!
# The client address of a request

`Command::decode` parses the address of a connection behind an optional `IPv6:` and brackets
and stores it as it was spelled.  While no macro gives the address, a request projects what was
stored.

* `connection_of_history` — in every run, the connection is that of its CONNECT until the
  connection is over.
* `client_ip_iff` — a request sends the address that was validated iff it was spelled bare.
-/

/-! ### Fields of an object -/

namespace Json

/-- A lookup in a longer list of fields. -/
theorem lookup_cons_eq (key : Str) (field : Str × Json) (fields : List (Str × Json)) :
    (field :: fields).lookup key = if key = field.1 then some field.2 else fields.lookup key := by
  rw [List.lookup_cons]
  by_cases h : key = field.1
  · rw [if_pos h, beq_iff_eq.mpr h]
  · rw [if_neg h, beq_eq_false_iff_ne.mpr h]

/-- An entry that is inserted is read back; the others are kept. -/
theorem lookup_insertField {key : Str} {value : Json} (key' : Str) (fields : List (Str × Json)) :
    (insertField key value fields).lookup key' =
      if key' = key then some value else fields.lookup key' := by
  induction fields with
  | nil => rw [insertField, lookup_cons_eq]
  | cons field fields ih =>
    obtain ⟨k, v⟩ := field
    rw [insertField]
    by_cases hkey : key = k
    · subst hkey
      rw [if_pos rfl, lookup_cons_eq, lookup_cons_eq]
      by_cases h : key' = key <;> simp [h]
    · rw [if_neg hkey]
      by_cases hlt : key < k
      · rw [if_pos hlt, lookup_cons_eq]
      · rw [if_neg hlt, lookup_cons_eq, lookup_cons_eq, ih]
        by_cases h : key' = k
        · have hne : k ≠ key := Ne.symm hkey
          simp [h, hne]
        · simp [h]

/-- A field that is set is none of the others' business. -/
theorem get_set_of_ne {v value : Json} {key key' : Str} (h : key' ≠ key) :
    (v.set key value).get key' = v.get key' := by
  cases v with
  | object fields =>
    show (insertField key value fields).lookup key' = _
    rw [lookup_insertField, if_neg h]
    rfl
  | _ => rfl

end Json

namespace Hooks

/-! ### The projection -/

/-- The client of a request, as the stored address gives it. -/
theorem client_ip {session : Session} {connection : Connection} {c : Json}
    (hunset : macroText session "client_addr" = .ok none)
    (h : client session connection = .ok c) :
    ∃ ip, optionalText connection.address = .ok ip ∧ c.get "ip" = some (.ofText ip) := by
  obtain ⟨macroIp, hunset', h⟩ := Result.bind_ok_iff.mp h
  obtain rfl := Except.ok.inj (hunset.symm.trans hunset')
  obtain ⟨ip, hip, h⟩ := Result.bind_ok_iff.mp h
  obtain ⟨ehlo, -, h⟩ := Result.bind_ok_iff.mp h
  obtain ⟨ptr, -, h⟩ := Result.bind_ok_iff.mp h
  obtain ⟨connections, -, h⟩ := Result.bind_ok_iff.mp h
  obtain rfl := Except.ok.inj h
  refine ⟨ip, hip, ?_⟩
  have hptr : ascii "ip" ≠ ascii "ptr" := by decide
  have hconnections : ascii "ip" ≠ ascii "activeConnections" := by decide
  split
  · rw [Json.get_set_of_ne hconnections]
    split
    · rw [Json.get_set_of_ne hptr]
      rfl
    · rfl
  · split
    · rw [Json.get_set_of_ne hptr]
      rfl
    · rfl

/-- Only the offered properties are projected. -/
theorem property_offered {b64 : Base64} {timestamp : Str} {session : Session}
    {connection : Connection} {stage : Stage} {p : Str} {value : Json}
    (h : property b64 timestamp session connection stage p = .ok value) :
    p ∈ offeredProperties := by
  by_contra hp
  simp only [offeredProperties, List.mem_cons, List.not_mem_nil, or_false, not_or] at hp
  simp [property, hp] at h

/-- The property of the client is stored under its own key. -/
theorem property_client {b64 : Base64} {timestamp : Str} {session : Session}
    {connection : Connection} {stage : Stage} :
    property b64 timestamp session connection stage "/client" = client session connection := rfl

/-- The client in the body of a request. -/
theorem request_client {b64 : Base64} {timestamp : Str} {session : Session} {stage : Stage}
    {properties : List Str} {body : Json} (hp : ascii "/client" ∈ properties)
    (h : request b64 timestamp session stage properties = .ok body) :
    ∃ connection c, session.connection = some connection ∧ client session connection = .ok c ∧
      body.get "client" = some c := by
  obtain ⟨connection, hconnection, h⟩ := Result.bind_ok_iff.mp h
  obtain ⟨fields, hfields, h⟩ := Result.bind_ok_iff.mp h
  obtain rfl := Except.ok.inj h
  have hkey : ∀ p ∈ offeredProperties, p.drop 1 = ascii "client" → p = ascii "/client" := by
    decide +kernel
  obtain ⟨before, after, hsplit⟩ := List.append_of_mem hp
  rw [hsplit] at hfields
  obtain ⟨start, next, -, hstep, hafter⟩ := Result.foldlM_ok_append hfields
  obtain ⟨c, hc, hnext⟩ := Result.bind_ok_iff.mp hstep
  obtain rfl := Except.ok.inj hnext
  have hstored : (Json.insertField (ascii "/client" |>.drop 1) c start).lookup (ascii "client") =
      some c := by
    rw [Json.lookup_insertField]
    exact if_pos rfl
  refine ⟨connection, c, okOr_eq_ok.mp hconnection, property_client.symm.trans hc, ?_⟩
  -- No other property is stored under the key of the client.
  refine Result.foldlM_invariant (P := fun fields => fields.lookup (ascii "client") = some c)
    hafter hstored fun fields p _ fields' hkept hother => ?_
  obtain ⟨value, hvalue, hother⟩ := Result.bind_ok_iff.mp hother
  obtain rfl := Except.ok.inj hother
  rw [Json.lookup_insertField]
  by_cases hclient : ascii "client" = p.drop 1
  · obtain rfl := hkey p (property_offered hvalue) hclient.symm
    obtain rfl := Except.ok.inj (hc.symm.trans hvalue)
    rw [if_pos hclient]
  · rw [if_neg hclient]
    exact hkept

end Hooks

/-! ### The connection in a run -/

namespace Session

/-- To await a decision leaves the connection alone. -/
theorem awaiting_connection (u : Session) (c : Command) :
    (u.awaiting c).connection = u.connection := by
  unfold awaiting
  split <;> rfl

/-- A decision leaves the connection alone. -/
theorem settle_connection (stage : Stage) (v : Verdict) (s : Session) :
    (settle stage v s).connection = s.connection := by
  unfold settle
  dsimp only
  split_ifs <;> rfl

/-- CONNECT gives the connection. -/
theorem Accepts.connection_of_connect {s t : Session} {info : Connection} {step : Step}
    (h : Accepts s (.connect info) step t) :
    s.state = .negotiated ∧ t.connection = some info := by
  cases h with
  | @perform _ u _ hperforms =>
    rw [awaiting_connection]
    cases hperforms with
    | connect hstate => exact ⟨hstate, rfl⟩

/-- Every command but CONNECT and the end of the connection leaves it alone. -/
theorem Accepts.connection {s t : Session} {c : Command} {step : Step} (h : Accepts s c step t)
    (hconnect : ∀ info, c ≠ .connect info) (hquit : c ≠ .quitNewConnection) :
    t.connection = s.connection := by
  cases h with
  | negotiate _ _ _ => rfl
  | macros _ _ => rfl
  | @perform _ u _ hperforms =>
    rw [awaiting_connection]
    cases hperforms with
    | connect _ => exact absurd rfl (hconnect _)
    | quitNewConnection => exact absurd rfl hquit
    | _ => rfl

/-- The accepted commands of a run, the newest first. -/
def commands (log : List Exchange) : List Command := log.map (·.command)

/-- A decision is no command. -/
theorem commands_decide (d : Decision) (frames : List Frame) (log : List Exchange) :
    commands (Exchange.decide d frames log) = commands log := by
  cases log <;> rfl

/-- The session has the connection of a CONNECT that no end of the connection follows. -/
def Connected (x : Logged) : Prop :=
  ∀ later info earlier, commands x.2 = later ++ .connect info :: earlier →
    .quitNewConnection ∉ later → x.1.connection = some info

/-- A call that is logged keeps the connection that of its last CONNECT. -/
theorem Logs.connected {s : Session} {log : List Exchange} {x : Logged} (h : Logs s log x)
    (hs : Valid s) (hc : Connected (s, log)) : Connected x := by
  cases h with
  | @accepted c step t _ _ haccepts =>
    intro later info earlier hsplit hquit
    cases later with
    | nil =>
      obtain ⟨rfl, -⟩ := List.cons.inj hsplit
      exact haccepts.connection_of_connect.2
    | cons c' later =>
      obtain ⟨rfl, htail⟩ := List.cons.inj hsplit
      have hbefore : s.connection = some info :=
        hc later info earlier htail fun hmem => hquit (List.mem_cons_of_mem _ hmem)
      have hother : ∀ other, c ≠ .connect other := by
        -- A second CONNECT needs a session without connection.
        rintro other rfl
        have hnone := hs.noConnection (.inr haccepts.connection_of_connect.1)
        exact nomatch hbefore.symm.trans hnone
      have hopen : c ≠ .quitNewConnection := fun heq => hquit (heq ▸ List.mem_cons_self)
      exact (haccepts.connection hother hopen).trans hbefore
  | @refused t hsame =>
    intro later info earlier hsplit hquit
    exact hsame.connection.trans (hc later info earlier hsplit hquit)
  | @dropped t _ _ hsame =>
    intro later info earlier hsplit hquit
    exact hsame.connection.trans (hc later info earlier hsplit hquit)
  | @decided d stage frames t hcompletes =>
    intro later info earlier hsplit hquit
    rw [commands_decide] at hsplit
    show t.connection = some info
    rw [hcompletes.settled, settle_connection]
    exact hc later info earlier hsplit hquit

/-- **The connection of a run** is that of its CONNECT until the connection is over. -/
theorem connection_of_history {s₀ : Session} (hs₀ : s₀.Initial) (calls : List Call) :
    Connected (Machine.after call s₀ calls, history s₀ calls) := by
  have hstart : Connected (s₀, []) := by
    intro later info earlier hsplit _
    exact absurd hsplit.symm (by simp [commands])
  have hend := logged_invariant hs₀ hstart (fun s log x hs hc hl => hl.connected hs hc) calls
  intro later info earlier hsplit hquit
  rw [← loggedAfter_session]
  exact hend later info earlier hsplit hquit

/-- Every accepted command was decoded from a frame. -/
theorem decoded_of_history (s₀ : Session) (calls : List Call) :
    ∀ c ∈ commands (history s₀ calls), ∃ f, Command.decode f = .ok c := by
  have hstep : ∀ x : Logged, ∀ i ∈ calls,
      (∀ c ∈ commands x.2, ∃ f, Command.decode f = .ok c) →
        ∀ c ∈ commands (loggedCall x i).2.2, ∃ f, Command.decode f = .ok c := by
    rintro ⟨s, log⟩ i - hlog
    cases i with
    | receive f =>
      show ∀ c ∈ commands (enter log (Command.decode f) (receive f s)), _
      unfold enter
      split
      next command step t hdecode hreceive =>
        intro c hc
        rcases List.mem_cons.mp hc with rfl | hc
        · exact ⟨f, hdecode⟩
        · exact hlog c hc
      · exact hlog
    | complete d =>
      show ∀ c ∈ commands (close log d (complete d s)), _
      unfold close
      split
      · rw [commands_decide]
        exact hlog
      · exact hlog
  exact Machine.run_invariant_on (P := fun x : Logged =>
    ∀ c ∈ commands x.2, ∃ f, Command.decode f = .ok c) calls (s₀, [])
    (fun _ hc => nomatch hc) hstep

end Session

namespace Hooks

open Session

/-! ### Bare addresses -/

/-- No IP address begins with a byte that is neither a hexadecimal digit nor a colon. -/
theorem parseIpAddr_of_head {c : UInt8} (hc : c = byte 'I' ∨ c = byte '[') (rest : Bytes) :
    parseIpAddr (c :: rest) = none := by
  have hdigits : ∀ radix ∈ [10, 16], readDigits radix 0 0 (c :: rest) = (0, 0, c :: rest) := by
    intro radix hradix
    have hnone : toDigit radix c = none := by
      simp only [List.mem_cons, List.not_mem_nil, or_false] at hradix
      rcases hc with rfl | rfl <;> rcases hradix with rfl | rfl <;> decide
    rw [readDigits, hnone]
  have hnumber : ∀ radix ∈ [10, 16], ∀ digits max zero,
      readNumber radix digits max zero (c :: rest) = none := by
    intro radix hradix digits max zero
    simp [readNumber, hdigits radix hradix]
  have hcolon : readGivenChar (byte ':') (c :: rest) = none := by
    rcases hc with rfl | rfl <;> rfl
  have hten := hnumber 10 (by simp)
  have hsixteen := hnumber 16 (by simp)
  have hfour : readIpv4 (c :: rest) = none := by
    simp [readIpv4, readSeparator, hten]
  have hgroups : readGroups 0 8 (c :: rest) = ([], false, c :: rest) := by
    simp [readGroups, readSeparator, hfour, hsixteen]
  have hsix : readIpv6 (c :: rest) = none := by
    simp [readIpv6, hgroups, hcolon]
  simp [parseIpAddr, hfour, hsix]

/-- The text of an address is the address itself iff it is written bare, for an address that
    decodes. -/
theorem parseIpAddr_bare {address : Bytes} {ip : IpAddr}
    (h : parseIpAddr (Command.clientText address) = some ip) :
    parseIpAddr address = some ip ↔
      startsWith "IPv6:" address = false ∧ startsWith "[" address = false := by
  constructor
  · intro hbare
    have hhead : ∀ c, c = byte 'I' ∨ c = byte '[' → ∀ rest, address ≠ c :: rest := by
      rintro c hc rest rfl
      rw [parseIpAddr_of_head hc] at hbare
      exact nomatch hbare
    constructor
    · rw [Bool.eq_false_iff]
      intro hstarts
      obtain ⟨rest, hrest⟩ := startsWith_iff.mp hstarts
      exact hhead (byte 'I') (.inl rfl) _ hrest
    · rw [Bool.eq_false_iff]
      intro hstarts
      obtain ⟨rest, hrest⟩ := startsWith_iff.mp hstarts
      exact hhead (byte '[') (.inr rfl) _ hrest
  · rintro ⟨hversion, hbracket⟩
    have hplain : Command.clientText address = address := by
      rw [startsWith, Option.isSome_eq_false_iff, Option.isNone_iff_eq_none] at hversion hbracket
      simp [Command.clientText, hversion, hbracket]
    rwa [hplain] at h

/-- The address of the client in the body of a request. -/
def sentIp (body : Json) : Option Str :=
  (body.get "client").bind fun c => (c.get "ip").bind Json.asStr

/-- The body sends a literal of an IP address. -/
def SendsIp (body : Json) (ip : IpAddr) : Prop :=
  ∃ literal, sentIp body = some literal ∧ parseIpAddr literal = some ip

/-- **The client address of a request**: after a CONNECT of family 4 or 6, and until the
    connection is over, a request with no address from a macro sends a literal of the address that
    was validated iff that address was spelled without `IPv6:` and without brackets. -/
theorem client_ip_iff {s₀ s : Session} (hs₀ : s₀.Initial) {calls : List Call}
    (hs : s = Machine.after call s₀ calls) {later earlier : List Command} {info : Connection}
    (hlog : commands (history s₀ calls) = later ++ .connect info :: earlier)
    (hquit : .quitNewConnection ∉ later) (hfamily : info.family = byte '4' ∨ info.family = byte '6')
    {b64 : Base64} {timestamp : Str} {stage : Stage} {properties : List Str} {body : Json}
    (hp : ascii "/client" ∈ properties) (hunset : macroText s "client_addr" = .ok none)
    (h : request b64 timestamp s stage properties = .ok body) :
    ∃ address ip, info.address = some address ∧ Command.parseClientIp address = .ok ip ∧
      (ip.isIpv4 = true ↔ info.family = byte '4') ∧
      (SendsIp body ip ↔
        startsWith "IPv6:" address = false ∧ startsWith "[" address = false) := by
  obtain ⟨connection, c, hconnection, hclient, hbody⟩ := request_client hp h
  -- The connection of the session is the one of the CONNECT.
  have hknown : s.connection = some info := by
    rw [hs]
    exact connection_of_history hs₀ calls later info earlier hlog hquit
  obtain rfl := Option.some.inj (hconnection.symm.trans hknown)
  obtain ⟨f, hf⟩ := decoded_of_history s₀ calls (.connect connection) (by rw [hlog]; simp)
  have hvalid : Command.IsClient connection := (Command.decode_eq_ok.mp hf).1
  cases hvalid with
  | unknown hname =>
    have hunknown : ¬ (byte 'U' = byte '4' ∨ byte 'U' = byte '6') := by decide
    exact absurd hfamily hunknown
  | @address hostname family port address hname haddress hspells =>
    have hl : family ≠ byte 'L' := by
      rintro rfl
      have hlocal : ¬ (byte 'L' = byte '4' ∨ byte 'L' = byte '6') := by decide
      exact hlocal hfamily
    obtain ⟨-, hutf8, ip, hparse, hversion⟩ := hspells.resolve_left hl
    refine ⟨address, ip, rfl, Command.parseClientIp_eq_ok.mpr ⟨hutf8, hparse⟩, hversion, ?_⟩
    obtain ⟨sent, hsent, hip⟩ := client_ip hunset hclient
    obtain ⟨literal, hliteral, hsent⟩ := Result.bind_ok_iff.mp hsent
    obtain rfl := Except.ok.inj hsent
    obtain ⟨rfl, -⟩ := text_ok hliteral
    have hsentIp : sentIp body = some literal := by
      simp [sentIp, hbody, hip, Json.ofText, Json.asStr]
    rw [← parseIpAddr_bare hparse]
    constructor
    · rintro ⟨literal', hsent', hparse'⟩
      obtain rfl := Option.some.inj (hsentIp.symm.trans hsent')
      exact hparse'
    · exact fun hbare => ⟨literal, hsentIp, hbare⟩

/-- A CONNECT from port 25 of an address. -/
def connectFrom (family : Char) (address : String) : Frame :=
  ⟨byte 'C', ascii "mx" ++ [0, byte family, 0, 25] ++ ascii address ++ [0]⟩

/-- A session at the callback of the CONNECT. -/
def connectedFrom (family : Char) (address : String) : Session :=
  Sample.received [.connect] [Sample.offer, connectFrom family address]

/-- The request of the callback. -/
def clientRequest (family : Char) (address : String) : Result Json :=
  request Sample.base64 "now" (connectedFrom family address) .connect [ascii "/client"]

/-- An address that is sent stands in the request. -/
theorem sentIp_of_toOption {r : Result Json} {literal : Str}
    (h : r.toOption.bind sentIp = some literal) : ∃ body, r = .ok body ∧
      sentIp body = some literal := by
  cases r with
  | ok body => exact ⟨body, rfl, h⟩
  | error e => exact nomatch h

/-- The address with prefix and brackets is sent as it was spelled. -/
theorem prefixedAddress_sent :
    Command.decode (connectFrom '6' "IPv6:[::1]") =
        .ok (.connect ⟨"mx", byte '6', some 25, some "IPv6:[::1]"⟩) ∧
      Command.parseClientIp "IPv6:[::1]" = .ok (.v6 [0, 0, 0, 0, 0, 0, 0, 1]) ∧
      macroText (connectedFrom '6' "IPv6:[::1]") "client_addr" = .ok none ∧
      ∃ body, clientRequest '6' "IPv6:[::1]" = .ok body ∧
        sentIp body = some (ascii "IPv6:[::1]") ∧
        ∀ ip, ¬ SendsIp body ip := by
  refine ⟨by decide +kernel, by decide +kernel, by decide +kernel, ?_⟩
  have hrequest : (clientRequest '6' "IPv6:[::1]").toOption.bind sentIp =
      some (ascii "IPv6:[::1]") := by decide +kernel
  obtain ⟨body, hbody, hsent⟩ := sentIp_of_toOption hrequest
  refine ⟨body, hbody, hsent, ?_⟩
  rintro ip ⟨literal, hliteral, hparse⟩
  obtain rfl := Option.some.inj (hsent.symm.trans hliteral)
  have hnone : parseIpAddr (ascii "IPv6:[::1]") = none := by decide +kernel
  exact nomatch hnone.symm.trans hparse

/-- A bare address of the right family is sent. -/
theorem client_ip_iff_at_bare :
    ∃ body, clientRequest '4' "192.0.2.1" = .ok body ∧ SendsIp body (.v4 [192, 0, 2, 1]) := by
  have hrequest : (clientRequest '4' "192.0.2.1").toOption.bind sentIp =
      some (ascii "192.0.2.1") := by decide +kernel
  obtain ⟨body, hbody, -⟩ := sentIp_of_toOption hrequest
  have hlog : commands (history (Sample.session [.connect])
      ([Sample.offer, connectFrom '4' "192.0.2.1"].map .receive)) =
      [] ++ .connect ⟨"mx", byte '4', some 25, some "192.0.2.1"⟩ ::
        [.negotiate ⟨6, supportedActions, 0⟩] := by decide +kernel
  obtain ⟨address, ip, haddress, hip, -, hiff⟩ :=
    client_ip_iff (Sample.session_initial _) rfl hlog List.not_mem_nil (.inl rfl)
      List.mem_cons_self (by decide +kernel) hbody
  obtain rfl := Option.some.inj haddress
  have hparse : Command.parseClientIp "192.0.2.1" = .ok (.v4 [192, 0, 2, 1]) := by decide +kernel
  obtain rfl := Except.ok.inj (hip.symm.trans hparse)
  exact ⟨body, hbody, hiff.mpr ⟨by decide +kernel, by decide +kernel⟩⟩

end Hooks

end MtaHooks
