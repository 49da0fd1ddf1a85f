import MtaHooks.Session.Transitions
import MtaHooks.Hooks.Mta
import MtaHooks.Protocol.Codec
import MtaHooks.Protocol.Decimal

namespace MtaHooks

/-!
# SMTP replies on the wire

A reply is sent as one line: the code, the optional enhanced code and the message, with a
space between them.  The MTA reads the line again, and an enhanced code counts for it wherever
it came from.  The class of an enhanced code is checked in its own field only.

* `ReplyLine` — a payload is one line of a code and a text.
* `reply_consistent_iff` — the line of a reply is consistent iff it has an enhanced code of its
  own or the message does not begin with one of another class.
-/

namespace Session

/-! ### What the MTA reads -/

/-- A part of an enhanced status code behind the class. -/
def Subcode (s : Str) : Prop := s ≠ [] ∧ s.length ≤ 3 ∧ s.all isAsciiDigit = true

/-- A text begins with an enhanced status code of a class; behind it the text ends or a space
    follows. -/
def BeginsWithStatus (text : Str) (c : UInt8) : Prop :=
  ∃ second third rest, isAsciiDigit c = true ∧ Subcode second ∧ Subcode third ∧
    text = c :: byte '.' :: second ++ byte '.' :: third ++ rest ∧
    (rest = [] ∨ rest.head? = some (byte ' '))

/-- A payload is one NUL-terminated line of a three-digit refusal code and a text. -/
structure ReplyLine (payload : Bytes) (code text : Str) : Prop where
  shape : payload = code ++ [byte ' '] ++ text ++ [0]
  digits : code.length = 3 ∧ code.all isAsciiDigit = true
  range : 400 ≤ digitsValue code ∧ digitsValue code < 600
  line : ∀ c ∈ code ++ [byte ' '] ++ text, c ≠ 0 ∧ c ≠ byte '\r' ∧ c ≠ byte '\n'

/-- A reply line whose text has no enhanced status code of another class than the code. -/
def Consistent (payload : Bytes) : Prop :=
  ∃ code text, ReplyLine payload code text ∧ ∀ c, BeginsWithStatus text c → code.head? = some c

/-! ### The code -/

/-- The bounds on a code hold of its number. -/
theorem code_range {code : UInt16} (h : 400 ≤ code ∧ code < 600) :
    400 ≤ code.toNat ∧ code.toNat < 600 := by
  have hlow := UInt16.le_iff_toNat_le.mp h.1
  have hhigh := UInt16.lt_iff_toNat_lt.mp h.2
  exact ⟨hlow, hhigh⟩

/-- The three digits of a code. -/
theorem decimal_hundreds {n : ℕ} (h : 400 ≤ n ∧ n < 600) :
    decimal n = [digit (n / 100), digit (n / 10 % 10), digit (n % 10)] := by
  have htens : n / 10 / 10 = n / 100 := by omega
  rw [decimal_of_le (by omega), decimal_of_le (by omega), htens, decimal_of_lt (by omega)]
  rfl

/-- A digit does not end a line. -/
theorem ne_of_isAsciiDigit {c : UInt8} (h : isAsciiDigit c = true) :
    c ≠ 0 ∧ c ≠ byte '\r' ∧ c ≠ byte '\n' := by
  refine ⟨?_, ?_, ?_⟩ <;>
  · rintro rfl
    exact absurd h (by decide)

/-- An enhanced code is the class of the code and two parts. -/
theorem enhancedCode_ok {code : UInt16} {enhanced : Str} (h : enhancedCode code enhanced = true) :
    ∃ second third, Subcode second ∧ Subcode third ∧
      enhanced = decimal (code / 100).toNat ++ byte '.' :: second ++ byte '.' :: third := by
  unfold enhancedCode at h
  split at h
  next first second third hsplit =>
    have hjoin : [byte '.'].intercalate (enhanced.splitOn (byte '.')) = enhanced :=
      List.intercalate_splitOn (byte '.')
    rw [hsplit] at hjoin
    simp only [Bool.and_eq_true, decide_eq_true_eq, List.all_cons, List.all_nil, Bool.and_true,
      Bool.not_eq_true', List.isEmpty_eq_false_iff] at h
    obtain ⟨rfl, ⟨⟨hne, hlen⟩, hall⟩, ⟨hne', hlen'⟩, hall'⟩ := h
    refine ⟨second, third, ⟨hne, hlen, hall⟩, ⟨hne', hlen', hall'⟩, ?_⟩
    rw [← hjoin]
    simp [List.intercalate]
  · exact nomatch h

/-- A clean message is one line. -/
theorem line_of_clean {message : Str} (h : clean message = .ok ()) :
    ∀ c ∈ message, c ≠ 0 ∧ c ≠ byte '\r' ∧ c ≠ byte '\n' := by
  unfold clean at h
  rcases Result.ite_ok h with ⟨-, h⟩ | ⟨hany, -⟩
  · exact nomatch h
  · intro c hc
    rw [Bool.not_eq_true, List.any_eq_false] at hany
    simpa [not_or, and_assoc] using hany c hc

/-! ### The line -/

/-- The text of a reply behind its code. -/
def replyTail (enhanced : Option Str) (message : Str) : Str :=
  match enhanced with
  | none => message
  | some enhanced => enhanced ++ [byte ' '] ++ message

/-- What a reply that is sent is made of. -/
theorem replyFrame_ok {code : UInt16} {enhanced : Option Str} {message : Str} {f : Frame}
    (h : replyFrame code enhanced message = .ok f) :
    (400 ≤ code ∧ code < 600) ∧ clean message = .ok () ∧
      (∀ e, enhanced = some e → enhancedCode code e = true) ∧
      f = ⟨byte 'y', decimal code.toNat ++ [byte ' '] ++ replyTail enhanced message ++ [0]⟩ := by
  obtain ⟨_, hrange, h⟩ := Result.bind_ok_iff.mp h
  obtain ⟨_, hclean, h⟩ := Result.bind_ok_iff.mp h
  obtain ⟨text, htext, h⟩ := Result.bind_ok_iff.mp h
  obtain ⟨-, rfl⟩ := stringFrame_eq_ok.mp h
  refine ⟨not_not.mp (rejectIf_eq_ok.mp hrange), hclean, ?_⟩
  unfold replyText at htext
  cases enhanced with
  | none =>
    obtain rfl := Except.ok.inj htext
    exact ⟨fun _ he => (nomatch he), by simp [replyTail]⟩
  | some e =>
    rcases Result.ite_ok htext with ⟨hcode, htext⟩ | ⟨-, htext⟩
    · obtain rfl := Except.ok.inj htext
      refine ⟨fun e' he => ?_, by simp [replyTail]⟩
      obtain rfl := Option.some.inj he
      exact hcode
    · exact nomatch htext

/-- An enhanced code does not end the line. -/
theorem line_of_enhancedCode {code : UInt16} {enhanced : Str}
    (h : enhancedCode code enhanced = true) :
    ∀ c ∈ enhanced, c ≠ 0 ∧ c ≠ byte '\r' ∧ c ≠ byte '\n' := by
  obtain ⟨second, third, hsecond, hthird, rfl⟩ := enhancedCode_ok h
  intro c hc
  have hdot : byte '.' ≠ 0 ∧ byte '.' ≠ byte '\r' ∧ byte '.' ≠ byte '\n' := by decide
  have hdigits {s : Str} (hs : s.all isAsciiDigit = true) (hc : c ∈ s) :
      c ≠ 0 ∧ c ≠ byte '\r' ∧ c ≠ byte '\n' :=
    ne_of_isAsciiDigit (List.all_eq_true.mp hs c hc)
  simp only [List.mem_append, List.mem_cons] at hc
  rcases hc with (hc | rfl | hc) | rfl | hc
  · exact hdigits (decimal_all_digits _) hc
  · exact hdot
  · exact hdigits hsecond.2.2 hc
  · exact hdot
  · exact hdigits hthird.2.2 hc

/-- **The payload of a reply is one line.** -/
theorem replyLine_of_ok {code : UInt16} {enhanced : Option Str} {message : Str} {f : Frame}
    (h : replyFrame code enhanced message = .ok f) :
    ReplyLine f.payload (decimal code.toNat) (replyTail enhanced message) := by
  obtain ⟨hrange, hclean, henhanced, rfl⟩ := replyFrame_ok h
  refine ⟨rfl, ⟨?_, decimal_all_digits _⟩, ?_, ?_⟩
  · rw [decimal_hundreds (code_range hrange)]
    rfl
  · rw [digitsValue_decimal]
    exact code_range hrange
  · have hspace : byte ' ' ≠ 0 ∧ byte ' ' ≠ byte '\r' ∧ byte ' ' ≠ byte '\n' := by decide
    intro c hc
    simp only [List.mem_append, List.mem_singleton] at hc
    rcases hc with (hc | rfl) | hc
    · exact ne_of_isAsciiDigit (List.all_eq_true.mp (decimal_all_digits _) c hc)
    · exact hspace
    · cases enhanced with
      | none => exact line_of_clean hclean c hc
      | some e =>
        simp only [replyTail, List.mem_append, List.mem_singleton] at hc
        rcases hc with (hc | rfl) | hc
        · exact line_of_enhancedCode (henhanced e rfl) c hc
        · exact hspace
        · exact line_of_clean hclean c hc

/-- A payload is a line in one way. -/
theorem ReplyLine.unique {payload : Bytes} {code text code' text' : Str}
    (h : ReplyLine payload code text) (h' : ReplyLine payload code' text') :
    code = code' ∧ text = text' := by
  have hshape := h.shape.symm.trans h'.shape
  simp only [List.append_assoc] at hshape
  obtain ⟨rfl, htail⟩ := List.append_inj hshape (h.digits.1.trans h'.digits.1.symm)
  exact ⟨rfl, List.append_cancel_right (List.append_cancel_left htail)⟩

/-! ### Classes -/

/-- The first digit of a code is its class. -/
theorem head?_decimal {code : UInt16} (h : 400 ≤ code ∧ code < 600) :
    (decimal code.toNat).head? = some (digit (code.toNat / 100)) := by
  rw [decimal_hundreds (code_range h)]
  rfl

/-- An enhanced code of its own begins with the class of the code. -/
theorem class_of_enhancedCode {code : UInt16} {enhanced message : Str} {c : UInt8}
    (hrange : 400 ≤ code ∧ code < 600) (h : enhancedCode code enhanced = true)
    (hbegins : BeginsWithStatus (replyTail (some enhanced) message) c) :
    c = digit (code.toNat / 100) := by
  obtain ⟨second, third, -, -, rfl⟩ := enhancedCode_ok h
  obtain ⟨_, _, _, -, -, -, htext, -⟩ := hbegins
  have hclass : decimal (code / 100).toNat = [digit (code.toNat / 100)] := by
    have hhundreds : (code / 100).toNat = code.toNat / 100 := UInt16.toNat_div code 100
    have hrange' := code_range hrange
    rw [hhundreds, decimal_of_lt (by omega)]
  rw [replyTail, hclass] at htext
  exact (List.cons.inj htext).1.symm

/-- **The reply of a decision** is one line of a refusal code and a text; and the text has no
    enhanced status code of another class iff the reply has an enhanced code of its own or its
    message begins with none of another class. -/
theorem reply_consistent_iff {s t : Session} {d : Decision} {frames : List Frame}
    {code : UInt16} {enhanced : Option Str} {message : Str}
    (hd : d.verdict = .reply code enhanced message) (h : complete d s = (.ok frames, t)) :
    ∃ payload, frames = [⟨byte 'y', payload⟩] ∧
      ReplyLine payload (decimal code.toNat) (replyTail enhanced message) ∧
      (Consistent payload ↔
        enhanced.isSome ∨ ∀ c, BeginsWithStatus message c → c = digit (code.toNat / 100)) := by
  obtain ⟨stage, hc⟩ := complete_ok h
  obtain ⟨o, mods, final, -, -, hfinal, -, hframes⟩ := hc.frames
  rw [hd] at hfinal hframes
  have hreply : replyFrame code enhanced message = .ok final := hfinal
  have hline := replyLine_of_ok hreply
  obtain ⟨hrange, -, henhanced, hshape⟩ := replyFrame_ok hreply
  have hcommand : final = ⟨byte 'y', final.payload⟩ := by
    rw [hshape]
  refine ⟨final.payload, ?_, hline, ?_⟩
  · rw [hframes, if_pos (.inl rfl), List.nil_append, ← hcommand]
  constructor
  · rintro ⟨code', text, hline', hclass⟩
    obtain ⟨rfl, rfl⟩ := hline'.unique hline
    cases enhanced with
    | some e => exact .inl rfl
    | none =>
      refine .inr fun c hbegins => ?_
      have hhead := hclass c hbegins
      rw [head?_decimal hrange] at hhead
      exact (Option.some.inj hhead).symm
  · intro hcond
    refine ⟨_, _, hline, fun c hbegins => ?_⟩
    rw [head?_decimal hrange]
    apply congrArg some
    symm
    cases enhanced with
    | some e => exact class_of_enhancedCode hrange (henhanced e rfl) hbegins
    | none => exact (hcond.resolve_left (by simp)) c hbegins

/-- The scanner puts the enhanced code into the message. -/
def statusInMessage : Json :=
  Sample.response
    [Sample.setOp "/action" (.string "reject"),
      Sample.setOp "/response" (.ofFields
        [("code", .number (.pos 450)), ("message", .string "5.7.1 no")])] [] []

/-- At the callback of a sender. -/
def senderGiven : Session := Sample.received [.mail] [Sample.offer, Sample.connect, Sample.mail]

/-- The reply is sent with a code and an enhanced code that disagree. -/
theorem statusInMessage_sent :
    Hooks.translate Sample.base64 statusInMessage senderGiven .mail =
        .ok { verdict := .reply 450 none "5.7.1 no" } ∧
      (complete { verdict := .reply 450 none "5.7.1 no" } senderGiven).1 =
        .ok [⟨byte 'y', ascii "450 5.7.1 no" ++ [0]⟩] ∧
      (complete { verdict := .reply 450 (some "5.7.1") "no" } senderGiven).1 =
        .error (.invalid "enhanced SMTP code") ∧
      ¬ Consistent (ascii "450 5.7.1 no" ++ [0]) := by
  refine ⟨by decide +kernel, by decide +kernel, by decide +kernel, ?_⟩
  rintro ⟨code, text, hline, hclass⟩
  have hline' : ReplyLine (ascii "450 5.7.1 no" ++ [0]) "450" "5.7.1 no" :=
    ⟨rfl, by decide +kernel, by decide +kernel, by decide +kernel⟩
  obtain ⟨rfl, rfl⟩ := hline.unique hline'
  have hbegins : BeginsWithStatus "5.7.1 no" (byte '5') :=
    ⟨"7", "1", " no", by decide, ⟨by decide, by decide, by decide⟩,
      ⟨by decide, by decide, by decide⟩, by decide, .inr (by decide)⟩
  exact absurd (hclass _ hbegins) (by decide)

/-- A temporary failure with an enhanced code of its own class. -/
theorem reply_consistent_iff_at_later :
    ∃ payload, (complete { verdict := .reply 451 (some "4.7.1") "later" } senderGiven).1 =
        .ok [⟨byte 'y', payload⟩] ∧ Consistent payload := by
  have hrun : complete { verdict := .reply 451 (some "4.7.1") "later" } senderGiven =
      (.ok [⟨byte 'y', ascii "451 4.7.1 later" ++ [0]⟩],
        (complete { verdict := .reply 451 (some "4.7.1") "later" } senderGiven).2) := by
    have hframes : (complete { verdict := .reply 451 (some "4.7.1") "later" } senderGiven).1 =
        .ok [⟨byte 'y', ascii "451 4.7.1 later" ++ [0]⟩] := by decide +kernel
    exact Prod.ext hframes rfl
  obtain ⟨payload, hframes, -, hiff⟩ := reply_consistent_iff rfl hrun
  exact ⟨payload, by rw [hrun, hframes], hiff.mpr (.inl rfl)⟩

end Session

end MtaHooks
