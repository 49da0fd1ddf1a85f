import MtaHooks.Hooks.Parts

namespace MtaHooks

/-!
# The envelope form of a scanner's address

`Address.milter` puts an address in angle brackets and joins its parameters to one text.

* `readParameters_milter` — the text of the parameters gives them back;
* `milter_eq_null` — which addresses become the null path;
* `milter_wellFormed_iff` — an accepted address is well formed, except that the text `<>` passes
  as a recipient.
-/

namespace Hooks

open Edits

namespace Address

/-! ### Brackets -/

theorem startsWith_bracketed (a : Str) : startsWith "<" (bracketed a) = true := by
  unfold bracketed
  split
  · rename_i h
    exact (Bool.and_eq_true_iff.mp h).1
  · exact startsWith_iff.mpr ⟨a ++ [byte '>'], rfl⟩

theorem endsWith_bracketed (a : Str) : endsWith ">" (bracketed a) = true := by
  unfold bracketed
  split
  · rename_i h
    exact (Bool.and_eq_true_iff.mp h).2
  · exact endsWith_iff.mpr ⟨byte '<' :: a, rfl⟩

/-- Brackets make the null path of nothing and of the null path itself. -/
theorem bracketed_eq_null {a : Str} : bracketed a = ascii "<>" ↔ a = [] ∨ a = ascii "<>" := by
  unfold bracketed
  split
  · rename_i h
    have hopen := (Bool.and_eq_true_iff.mp h).1
    constructor
    · exact .inr
    · rintro (rfl | rfl)
      · exact absurd hopen (by decide)
      · rfl
  · rename_i h
    constructor
    · intro hnull
      have hlength := congrArg List.length hnull
      rw [List.length_append, List.length_append] at hlength
      exact .inl (List.eq_nil_of_length_eq_zero (by
        have htwo : (ascii "<>").length = 2 := rfl
        rw [htwo] at hlength
        simp at hlength
        exact List.length_eq_zero_iff.mpr hlength))
    · rintro (rfl | rfl)
      · rfl
      · exact absurd (by decide) h

/-! ### Parameters -/

/-- The keyword of a parameter and its value, if it has one. -/
def readParameter (piece : Str) : Str × Option Str :=
  match splitOnce (byte '=') piece with
  | some (keyword, value) => (keyword, some value)
  | none => (piece, none)

/-- The parameters of a parameter text. -/
def readParameters (parameters : Option Str) : List (Str × Option Str) :=
  match parameters with
  | some text => (text.splitOn (byte ' ')).map readParameter
  | none => []

/-- A parameter of the object: no value for null and for the empty text. -/
def keywordValue (p : Str × Json) : Str × Option Str := (p.1, p.2.asStr.filter (· ≠ []))

/-- Only a text or null is a value. -/
theorem parameterText_value {p : Str × Json} {piece : Str} (h : parameterText p = .ok piece) :
    ∃ value, p.2.asStr.filter (· ≠ []) = (if value = [] then none else some value) ∧
      ¬ (p.1 = [] ∨ byte '=' ∈ p.1 ∨ byte ' ' ∈ p.1 ∨ byte ' ' ∈ value) ∧
      piece = if value = [] then p.1 else p.1 ++ [byte '='] ++ value := by
  obtain ⟨key, v⟩ := p
  cases v with
  | string value =>
    obtain ⟨_, htext, h⟩ := Result.bind_ok_iff.mp h
    obtain ⟨_, hchecks, h⟩ := Result.bind_ok_iff.mp h
    cases htext
    refine ⟨value, ?_, rejectIf_eq_ok.mp hchecks, (Except.ok.inj h).symm⟩
    rw [Json.asStr, Option.filter_some]
    by_cases hvalue : value = [] <;> simp [hvalue]
  | null =>
    obtain ⟨_, htext, h⟩ := Result.bind_ok_iff.mp h
    obtain ⟨_, hchecks, h⟩ := Result.bind_ok_iff.mp h
    cases htext
    exact ⟨[], rfl, rejectIf_eq_ok.mp hchecks, (Except.ok.inj h).symm⟩
  | _ => cases h

/-- The text of a parameter is one word, and is read back as the parameter. -/
theorem parameterText_ok {p : Str × Json} {piece : Str} (h : parameterText p = .ok piece) :
    piece ≠ [] ∧ byte ' ' ∉ piece ∧ readParameter piece = keywordValue p := by
  obtain ⟨value, hvalue, hchecks, hpiece⟩ := parameterText_value h
  simp only [not_or] at hchecks
  obtain ⟨hnonempty, hkey, hkeyspace, hspace⟩ := hchecks
  rw [keywordValue, hvalue, hpiece, readParameter]
  by_cases hempty : value = []
  · rw [if_pos hempty, if_pos hempty, splitOnce_eq_none.mpr hkey]
    exact ⟨hnonempty, hkeyspace, rfl⟩
  · have hsplit : splitOnce (byte '=') (p.1 ++ [byte '='] ++ value) = some (p.1, value) :=
      splitOnce_eq_some.mpr ⟨by simp, hkey⟩
    rw [if_neg hempty, if_neg hempty, hsplit]
    refine ⟨by simp [hnonempty], ?_, rfl⟩
    simp only [List.mem_append, List.mem_singleton, not_or]
    exact ⟨⟨hkeyspace, by decide⟩, hspace⟩

/-- The pieces of the parameters, one for each. -/
theorem mapM_parameterText {parameters : List (Str × Json)} {pieces : List Str}
    (h : parameters.mapM parameterText = .ok pieces) :
    pieces.map readParameter = parameters.map keywordValue ∧
      ∀ piece ∈ pieces, piece ≠ [] ∧ byte ' ' ∉ piece := by
  induction parameters generalizing pieces with
  | nil =>
    rw [← Except.ok.inj h]
    simp
  | cons p parameters ih =>
    rw [List.mapM_cons] at h
    obtain ⟨piece, hpiece, h⟩ := Result.bind_ok_iff.mp h
    obtain ⟨rest, hrest, h⟩ := Result.bind_ok_iff.mp h
    rw [← Except.ok.inj h]
    obtain ⟨hread, hclean⟩ := ih hrest
    obtain ⟨hnonempty, hspace, hpair⟩ := parameterText_ok hpiece
    constructor
    · rw [List.map_cons, List.map_cons, hpair, hread]
    · exact List.forall_mem_cons.mpr ⟨⟨hnonempty, hspace⟩, hclean⟩

/-- **The parameters are read back.** -/
theorem readParameters_milter {a : Address} {allowNull : Bool} {address : Str}
    {parameters : Option Str} (h : a.milter allowNull = .ok (address, parameters)) :
    readParameters parameters = a.parameters.map keywordValue ∧
      (parameters = none ↔ a.parameters = []) := by
  obtain ⟨_, -, h⟩ := Result.bind_ok_iff.mp h
  obtain ⟨pieces, hpieces, h⟩ := Result.bind_ok_iff.mp h
  obtain ⟨hread, hclean⟩ := mapM_parameterText hpieces
  rw [← (Prod.mk.inj (Except.ok.inj h)).2]
  by_cases hnone : pieces = []
  · rw [hnone, List.map_nil, eq_comm, List.map_eq_nil_iff] at hread
    simp [hnone, hread, readParameters]
  · have hsome : a.parameters ≠ [] := by
      intro hnil
      rw [hnil, List.map_nil, List.map_eq_nil_iff] at hread
      exact hnone hread
    rw [if_neg hnone, readParameters,
      List.splitOn_intercalate _ (fun piece hpiece => (hclean piece hpiece).2) hnone]
    simp [hread, hsome]

/-! ### The address -/

/-- The address of an accepted object is its own part of the result. -/
theorem milter_address {a : Address} {allowNull : Bool} {address : Str} {parameters : Option Str}
    (h : a.milter allowNull = .ok (address, parameters)) :
    a.milterAddress allowNull = .ok address := by
  obtain ⟨address', haddress, h⟩ := Result.bind_ok_iff.mp h
  obtain ⟨_, -, h⟩ := Result.bind_ok_iff.mp h
  rw [haddress, (Prod.mk.inj (Except.ok.inj h)).1]

/-- An accepted address is put between angle brackets. -/
theorem milterAddress_form {a : Address} {allowNull : Bool} {address : Str}
    (h : a.milterAddress allowNull = .ok address) :
    startsWith "<" address = true ∧ endsWith ">" address = true := by
  unfold milterAddress at h
  split at h
  · rw [← Except.ok.inj h]
    exact ⟨startsWith_bracketed _, endsWith_bracketed _⟩
  · split at h
    · rw [← Except.ok.inj h]
      decide
    · cases h

/-- An address becomes the null path where it is empty and may be, or is the text `<>`. -/
theorem milter_eq_null {a : Address} {allowNull : Bool} {address : Str}
    (h : a.milterAddress allowNull = .ok address) :
    address = ascii "<>" ↔
      a.address.filter (· ≠ []) = none ∧ allowNull = true ∨ a.address = some (ascii "<>") := by
  unfold milterAddress at h
  cases hfilter : a.address.filter (· ≠ []) with
  | none =>
    rw [hfilter] at h
    cases allowNull with
    | false => cases h
    | true => simp [← Except.ok.inj h]
  | some s =>
    rw [hfilter] at h
    obtain ⟨haddress, hne⟩ := Option.filter_eq_some_iff.mp hfilter
    have hs : s ≠ [] := by simpa using hne
    rw [← Except.ok.inj h, bracketed_eq_null, haddress]
    simp [hs]

end Address

open Address

/-- The envelope form of a scanner's address. -/
structure MilterForm (a : Address) (allowNull : Bool) (address : Str) (parameters : Option Str) :
    Prop where
  opens : startsWith "<" address = true
  closes : endsWith ">" address = true
  null : address = ascii "<>" → allowNull = true
  pairs : readParameters parameters = a.parameters.map keywordValue
  absent : parameters = none ↔ a.parameters = []

/-- The recipients that a response adds are the additions left in its edits. -/
theorem Translated.addRecipient_mem {b64 : Base64} {session : Session} {stage : Stage}
    {ops : Operations} {answered : Answered} {added edits : Edits}
    {modifications extra : List Modification} {d : Decision}
    (h : Translated b64 session stage ops answered added edits modifications extra d)
    (address : Str) (parameters : Option Str) :
    .addRecipient address parameters ∈ d.modifications ↔
      ∃ a ∈ edits.recipients.added.filterMap id, a.milter false = .ok (address, parameters) := by
  obtain ⟨changed, inserted, sender, deletes, adds, hr, hms⟩ := modifications_ok h.resolved
  have hpart : Mta.part (.addRecipient address parameters) = .recipients := rfl
  have hadds : .addRecipient address parameters ∈ adds ↔
      ∃ a ∈ edits.recipients.added.filterMap id, a.milter false = .ok (address, parameters) := by
    constructor
    · intro hm
      obtain ⟨a, ha, hadd⟩ := Result.mapM_ok_of_mem hr.adds hm
      obtain ⟨⟨_, _⟩, hmilter, hadd⟩ := Result.bind_ok_iff.mp hadd
      cases Except.ok.inj hadd
      exact ⟨a, ha, hmilter⟩
    · rintro ⟨a, ha, hmilter⟩
      exact Result.mem_of_mapM hr.adds ha (Result.bind_ok_iff.mpr ⟨_, hmilter, rfl⟩)
  rw [h.decision, hms]
  simp only [List.mem_append]
  constructor
  · rintro ((((((hm | hm) | hm) | hm) | hm) | hm) | hm)
    · cases hpart.symm.trans (changes_part hr.changed _ hm)
    · cases hpart.symm.trans (inserts_part hr.inserted _ hm)
    · cases hpart.symm.trans (senderChange_part hr.sender _ hm)
    · obtain ⟨i, -, hdelete⟩ := Result.mapM_ok_of_mem hr.deletes hm
      obtain ⟨_, -, hdelete⟩ := Result.bind_ok_iff.mp hdelete
      obtain ⟨_, -, hdelete⟩ := Result.bind_ok_iff.mp hdelete
      cases Except.ok.inj hdelete
    · exact hadds.mp hm
    · rcases sets_part h.sets rfl _ hm with hraw | hraw <;> cases hpart.symm.trans hraw
    · cases hpart.symm.trans (h.extra_part _ hm)
  · intro hm
    exact .inl (.inl (.inr (hadds.mpr hm)))

/-- **The envelope form of an address** is well formed iff the null path is allowed or the
    address is not the text `<>`; and a response adds the null path as a recipient iff one of the
    additions left in its edits has that address. -/
theorem milter_wellFormed_iff {a : Address} {allowNull : Bool} {address : Str}
    {parameters : Option Str} (h : a.milter allowNull = .ok (address, parameters)) :
    (MilterForm a allowNull address parameters ↔
      allowNull = true ∨ a.address ≠ some (ascii "<>")) ∧
    ∀ b64 value session stage d, translate b64 value session stage = .ok d →
      ∃ ops answered added edits modifications extra, Operations.fromValue value = some ops ∧
        Translated b64 session stage ops answered added edits modifications extra d ∧
        ((∃ p, .addRecipient (ascii "<>") p ∈ d.modifications) ↔
          ∃ x ∈ edits.recipients.added.filterMap id, x.address = some (ascii "<>")) := by
  constructor
  · have haddress := milter_address h
    have hform := milterAddress_form haddress
    obtain ⟨hpairs, habsent⟩ := readParameters_milter h
    have hnull := milter_eq_null haddress
    constructor
    · intro hwell
      by_contra hcond
      rw [not_or, not_not] at hcond
      exact hcond.1 (hwell.null (hnull.mpr (.inr hcond.2)))
    · intro hcond
      refine ⟨hform.1, hform.2, fun heq => ?_, hpairs, habsent⟩
      rcases hnull.mp heq with hempty | htext
      · exact hempty.2
      · exact hcond.resolve_right (not_not.mpr htext)
  · intro b64 value session stage d hd
    obtain ⟨ops, answered, added, edits, modifications, extra, hops, ht⟩ := translate_ok hd
    refine ⟨ops, answered, added, edits, modifications, extra, hops, ht, ?_⟩
    constructor
    · rintro ⟨p, hp⟩
      obtain ⟨x, hx, hmilter⟩ := (ht.addRecipient_mem _ _).mp hp
      rcases (milter_eq_null (milter_address hmilter)).mp rfl with ⟨-, hfalse⟩ | htext
      · cases hfalse
      · exact ⟨x, hx, htext⟩
    · rintro ⟨x, hx, htext⟩
      -- What is left was translated, so the addition has an envelope form.
      obtain ⟨changed, inserted, sender, deletes, adds, hr, -⟩ := modifications_ok ht.resolved
      obtain ⟨m, hm⟩ := Result.mapM_ok_mem hr.adds hx
      obtain ⟨⟨form, p⟩, hmilter, -⟩ := Result.bind_ok_iff.mp hm
      have hform : form = ascii "<>" :=
        (milter_eq_null (milter_address hmilter)).mpr (.inr htext)
      rw [hform] at hmilter
      exact ⟨p, (ht.addRecipient_mem _ _).mpr ⟨x, hx, hmilter⟩⟩

/-- A response that adds the recipient `<>`. -/
def nullRecipient : Json :=
  Sample.response [] [Sample.addOp "/envelope/to" 1 (.ofFields [("address", .string "<>")])] []

/-- The empty address is refused as a recipient, and the text `<>` is not. -/
theorem nullRecipient_added :
    Address.milter ⟨some "", []⟩ false = .error (.invalid "recipient address") ∧
      Address.milter ⟨some "<>", []⟩ false = .ok (ascii "<>", none) ∧
      translate Sample.base64 nullRecipient (Sample.atEnd ["<b>"] []) .endMessage =
        .ok { modifications := [.addRecipient "<>" none] } := by
  decide +kernel

/-- An address with two parameters, one of them without a value. -/
theorem milter_wellFormed_iff_at_notify :
    MilterForm ⟨some "b@c", [("NOTIFY", .string "NEVER"), ("X", .null)]⟩ false "<b@c>"
      (some "NOTIFY=NEVER X") :=
  (milter_wellFormed_iff (by decide +kernel)).1.mpr (.inr (by decide))

end Hooks

end MtaHooks
