import MtaHooks.Hooks.Mta
import MtaHooks.Hooks.Follows
import MtaHooks.Protocol.Decimal

namespace MtaHooks

/-!
# The paths of an accepted response

The documented update paths name an element of an array by its index, written without a
leading zero and with nothing behind it.  `arrayIndex` reads more: it lets leading zeros
through, and it reads a slash behind the index as if it were not there.

* `DocumentedPaths` — every operation uses a documented path, and no two paths name one place.
* `translate_paths_iff` — an accepted response has only documented paths iff none is careless.
-/

namespace Hooks

/-! ### Documented paths -/

/-- The arrays whose elements a path names. -/
def arrays : List Str := ["/message/headers", "/envelope/to"]

/-- The path of an element of an array. -/
def element (array : Str) (i : ℕ) : Str := array ++ [byte '/'] ++ decimal i

/-- The paths to set that name no element. -/
def plainSets : List Str :=
  ["/action", "/response", "/response/code", "/response/enhancedCode", "/response/message",
    "/envelope/from"]

/-- The paths to set, of a message with `n` headers. -/
def DocumentedSet (n : ℕ) (path : Str) : Prop :=
  path ∈ plainSets ∨ ∃ i < n, path = element "/message/headers" i ∨
    path = element "/message/headers" i ++ ascii "/value"

/-- The paths to add. -/
def DocumentedAdd (path : Str) : Prop := path ∈ arrays

/-- The paths to delete, of a message that has the given numbers of headers and recipients. -/
def DocumentedDelete (headers recipients : ℕ) (path : Str) : Prop :=
  (∃ i < headers, path = element "/message/headers" i) ∨
    ∃ i < recipients, path = element "/envelope/to" i

/-! ### Careless paths -/

/-- What stands behind a prefix starts with a digit. -/
def digitBehind (front path : Str) : Bool :=
  match stripPrefix front path with
  | some (c :: _) => isAsciiDigit c
  | _ => false

/-- A path that ends in a slash or writes an index with a leading zero. -/
def careless (path : Str) : Bool :=
  endsWith "/" path || arrays.any fun array => digitBehind (array ++ ascii "/0") path

/-- A path goes on with a digit behind its front. -/
theorem digitBehind_iff {front path : Str} :
    digitBehind front path = true ↔
      ∃ c rest, isAsciiDigit c = true ∧ path = front ++ c :: rest := by
  unfold digitBehind
  constructor
  · intro h
    split at h
    · next c rest hstrip => exact ⟨c, rest, h, stripPrefix_eq_some.mp hstrip⟩
    · exact nomatch h
  · rintro ⟨c, rest, hc, hpath⟩
    rw [stripPrefix_eq_some.mpr hpath]
    exact hc

/-- The careless paths: with a slash at the end, or a leading zero in an index. -/
theorem careless_iff {path : Str} :
    careless path = true ↔ (∃ front, path = front ++ ascii "/") ∨
      ∃ array ∈ arrays, ∃ c rest, isAsciiDigit c = true ∧
        path = array ++ ascii "/0" ++ c :: rest := by
  simp only [careless, Bool.or_eq_true, endsWith_iff, List.any_eq_true, digitBehind_iff]

/-- A path with a slash at the end is careless. -/
theorem careless_of_slash (front : Str) : careless (front ++ [byte '/']) = true :=
  careless_iff.mpr (.inl ⟨front, rfl⟩)

/-- A path with a leading zero in its index is careless. -/
theorem careless_of_leadingZero {array digits rest : Str} (harray : array ∈ arrays)
    (hall : digits.all isAsciiDigit = true) (hzero : leadingZero digits = true) :
    careless (array ++ [byte '/'] ++ digits ++ rest) = true := by
  match digits, hzero with
  | c :: d :: digits, hzero =>
    obtain rfl : c = byte '0' := of_decide_eq_true hzero
    have hd : isAsciiDigit d = true := List.all_eq_true.mp hall d (by simp)
    have hslash : ascii "/0" = [byte '/', byte '0'] := rfl
    refine careless_iff.mpr (.inr ⟨array, harray, d, digits ++ rest, hd, ?_⟩)
    simp [hslash]

/-! ### What an index is read from -/

/-- The index is a digit string, up to the end or to a slash. -/
theorem arrayIndex_ok {path array : Str} {i : ℕ} {tail : Str}
    (h : arrayIndex path array = some (i, tail)) :
    ∃ digits, digits ≠ [] ∧ digits.all isAsciiDigit = true ∧ digitsValue digits = i ∧
      (path = array ++ [byte '/'] ++ digits ∧ tail = [] ∨
        path = array ++ [byte '/'] ++ digits ++ byte '/' :: tail) := by
  obtain ⟨rest, hrest, h⟩ := Option.bind_eq_some_iff.mp h
  obtain ⟨behind, hbehind, hslash⟩ := Option.bind_eq_some_iff.mp hrest
  rw [stripPrefix_eq_some] at hbehind hslash
  have hpath : path = array ++ [byte '/'] ++ rest := by
    rw [hbehind, hslash, List.append_assoc]
    rfl
  split at h
  next index tail' hsplit =>
    split at h
    · exact nomatch h
    next hdigits =>
      obtain ⟨rfl, rfl⟩ := Prod.mk.inj (Option.some.inj h)
      simp only [not_or, not_not] at hdigits
      refine ⟨index, hdigits.1, hdigits.2.2, rfl, ?_⟩
      cases honce : splitOnce (byte '/') rest with
      | none =>
        rw [honce] at hsplit
        obtain ⟨rfl, rfl⟩ := Prod.mk.inj hsplit
        exact .inl ⟨hpath, rfl⟩
      | some pair =>
        rw [honce] at hsplit
        obtain rfl : pair = (index, tail') := hsplit
        rw [(splitOnce_eq_some.mp honce).1, ← List.append_assoc] at hpath
        exact .inr hpath

/-- The path that names a place: an element, or what stands below it. -/
def placePath (array : Str) (i : ℕ) (tail : Str) : Str :=
  element array i ++ if tail = [] then [] else byte '/' :: tail

/-- A path written with care is known from what it names. -/
theorem placePath_of_arrayIndex {path array : Str} {i : ℕ} {tail : Str}
    (hcare : careless path = false) (harray : array ∈ arrays)
    (h : arrayIndex path array = some (i, tail)) : path = placePath array i tail := by
  obtain ⟨digits, hne, hall, rfl, hpath⟩ := arrayIndex_ok h
  have hzero : leadingZero digits = false := by
    by_contra hzero
    rw [Bool.not_eq_false] at hzero
    have hcareless : ∀ rest, careless (array ++ [byte '/'] ++ digits ++ rest) = true :=
      fun rest => careless_of_leadingZero harray hall hzero
    rcases hpath with ⟨hpath, -⟩ | hpath
    · have hcareless := hcareless []
      rw [List.append_nil, ← hpath, hcare] at hcareless
      exact nomatch hcareless
    · have hcareless := hcareless (byte '/' :: tail)
      rw [← hpath, hcare] at hcareless
      exact nomatch hcareless
  rw [placePath, element, decimal_digitsValue hne hall hzero]
  rcases hpath with ⟨hpath, rfl⟩ | hpath
  · rw [if_pos rfl, List.append_nil, hpath]
  · have htail : tail ≠ [] := by
      rintro rfl
      rw [hpath, careless_of_slash] at hcare
      exact nomatch hcare
    rw [if_neg htail, hpath]

/-- Two paths written with care name different places. -/
theorem arrayIndex_injective {p q array : Str} {r : ℕ × Str} (harray : array ∈ arrays)
    (hp : careless p = false) (hq : careless q = false) (hpr : arrayIndex p array = some r)
    (hqr : arrayIndex q array = some r) : p = q :=
  (placePath_of_arrayIndex hp harray hpr).trans (placePath_of_arrayIndex hq harray hqr).symm

/-! ### Documented paths are written with care -/

/-- One array's name does not start another's elements. -/
theorem arrays_prefix {array array' s t : Str} (harray : array ∈ arrays)
    (harray' : array' ∈ arrays) (h : array ++ byte '/' :: s = array' ++ byte '/' :: t) :
    array = array' := by
  have hheaders : ∀ s, (ascii "/message/headers" ++ byte '/' :: s)[1]? = some (byte 'm') :=
    fun s => by rw [List.getElem?_append_left (by decide)]; rfl
  have hrecipients : ∀ s, (ascii "/envelope/to" ++ byte '/' :: s)[1]? = some (byte 'e') :=
    fun s => by rw [List.getElem?_append_left (by decide)]; rfl
  have hne : some (byte 'm') ≠ some (byte 'e') := by decide
  have hbyte := congrArg (·[1]?) h
  simp only [arrays, List.mem_cons, List.not_mem_nil, or_false] at harray harray'
  rcases harray with rfl | rfl <;> rcases harray' with rfl | rfl
  · rfl
  · rw [hheaders, hrecipients] at hbyte
    exact absurd hbyte hne
  · rw [hheaders, hrecipients] at hbyte
    exact absurd hbyte.symm hne
  · rfl

/-- The path of an element ends in a digit. -/
theorem getLast?_element {array : Str} {i : ℕ} {c : UInt8}
    (h : (element array i).getLast? = some c) : isAsciiDigit c = true := by
  rw [element, List.getLast?_append_of_ne_nil _ (decimal_ne_nil i)] at h
  exact List.all_eq_true.mp (decimal_all_digits i) c (List.mem_of_getLast? h)

/-- The path of an element, written out, is not careless. -/
theorem careless_element {array rest : Str} (harray : array ∈ arrays) (i : ℕ)
    (hrest : rest = [] ∨ rest = ascii "/value") : careless (element array i ++ rest) = false := by
  by_contra hcareless
  rw [Bool.not_eq_false, careless_iff] at hcareless
  rcases hcareless with ⟨front, hslash⟩ | ⟨array', harray', c, behind, hc, hzero⟩
  · -- The last byte is a digit, or the end of `value`.
    have hlast : (element array i ++ rest).getLast? = some (byte '/') := by
      rw [hslash, List.getLast?_append_of_ne_nil _ (by decide)]
      rfl
    rcases hrest with rfl | rfl
    · rw [List.append_nil] at hlast
      exact absurd (getLast?_element hlast) (by decide)
    · rw [List.getLast?_append_of_ne_nil _ (by decide)] at hlast
      exact absurd hlast (by decide)
  · -- Behind the array stands a numeral, which has no leading zero.
    have hslash : ascii "/0" = [byte '/', byte '0'] := rfl
    simp only [element, hslash, List.append_assoc, List.cons_append,
      List.nil_append] at hzero
    obtain rfl := arrays_prefix harray harray' hzero
    have hnumeral : decimal i ++ rest = byte '0' :: c :: behind :=
      (List.cons.inj (List.append_cancel_left hzero)).2
    have hleading := leadingZero_decimal i
    match hdigits : decimal i with
    | [] => exact decimal_ne_nil i hdigits
    | [d] =>
      rw [hdigits] at hnumeral
      have hbehind : rest = c :: behind := (List.cons.inj hnumeral).2
      rcases hrest with rfl | rfl
      · exact nomatch hbehind
      · obtain rfl : byte '/' = c := (List.cons.inj hbehind).1
        exact absurd hc (by decide)
    | d :: e :: digits =>
      rw [hdigits] at hnumeral hleading
      obtain rfl : d = byte '0' := (List.cons.inj hnumeral).1
      exact nomatch hleading

/-- The documented paths of `set` are not careless. -/
theorem careless_of_documentedSet {n : ℕ} {path : Str} (h : DocumentedSet n path) :
    careless path = false := by
  rcases h with hplain | ⟨i, -, rfl | rfl⟩
  · have hall : ∀ path ∈ plainSets, careless path = false := by decide +kernel
    exact hall path hplain
  · rw [← List.append_nil (element _ i)]
    exact careless_element (by decide) i (.inl rfl)
  · exact careless_element (by decide) i (.inr rfl)

/-- The documented paths of `add` are not careless. -/
theorem careless_of_documentedAdd {path : Str} (h : DocumentedAdd path) :
    careless path = false := by
  have hall : ∀ path ∈ arrays, careless path = false := by decide +kernel
  exact hall path h

/-- The documented paths of `delete` are not careless. -/
theorem careless_of_documentedDelete {headers recipients : ℕ} {path : Str}
    (h : DocumentedDelete headers recipients path) : careless path = false := by
  rcases h with ⟨i, -, rfl⟩ | ⟨i, -, rfl⟩
  · rw [← List.append_nil (element _ i)]
    exact careless_element (by decide) i (.inl rfl)
  · rw [← List.append_nil (element _ i)]
    exact careless_element (by decide) i (.inl rfl)

/-! ### Accepted operations -/

/-- An accepted `set` has a documented path if its path is written with care. -/
theorem Edits.set_path {session : Session} {path : Str} {value : Json} {e e' : Edits}
    (hcare : careless path = false) (h : e.set session path value = .ok e') :
    DocumentedSet session.message.headers.length path := by
  rcases Edits.set_cases h with ⟨index, tail, name, new, hindex, hlt, hnew, -⟩ | ⟨-, rfl, -⟩
  · have hplace := placePath_of_arrayIndex hcare (by decide) hindex
    refine .inr ⟨index, hlt, ?_⟩
    rcases Edits.newValue_ok hnew with ⟨rfl, -⟩ | ⟨htail, rfl, -⟩
    · left
      rw [hplace, placePath, if_pos rfl, List.append_nil]
    · right
      rw [hplace, placePath, if_neg htail]
      rfl
  · exact .inl (by decide)

/-- A `set` that is accepted, and not careless, has a documented path. -/
theorem applySet_path {b64 : Base64} {session : Session} {op : SetOp} {a a' : Answered}
    (hraw : op.path ≠ ascii "/rawMessage") (hcare : careless op.path = false)
    (h : applySet b64 session false a op = .ok a') :
    DocumentedSet session.message.headers.length op.path := by
  cases setStep_of_ok h with
  | raw hpath => exact absurd hpath hraw
  | ignored _ hskip => exact nomatch hskip
  | action hpath => exact .inl (by rw [hpath]; decide)
  | response hpath => exact .inl (by rw [hpath]; decide)
  | part hpath =>
    have hall : ∀ path ∈ [ascii "/response/code", ascii "/response/enhancedCode",
        ascii "/response/message"], path ∈ plainSets := by decide
    exact .inl (hall _ (isResponsePart_iff.mp hpath))
  | edit _ _ hset => exact Edits.set_path hcare hset

/-- An accepted `add` has a documented path. -/
theorem Edits.add_path {session : Session} {op : AddOp} {e e' : Edits}
    (h : e.add session op = .ok e') : DocumentedAdd op.path := by
  rcases Edits.add_cases h with ⟨hpath, -⟩ | ⟨hpath, -⟩
  · rw [hpath]
    exact List.mem_cons_self
  · rw [hpath]
    exact List.mem_cons_of_mem _ List.mem_cons_self

/-- An accepted `delete` has a documented path if its path is written with care. -/
theorem Edits.delete_path {op : DeleteOp} {e e' : Edits} (hcare : careless op.path = false)
    (h : e.delete op.path = .ok e') :
    DocumentedDelete e.headers.slots.length e.recipients.slots.length op.path := by
  have hplace {array : Str} (harray : array ∈ arrays) {index : ℕ}
      (hindex : deleteIndex op.path array = some index) : op.path = element array index := by
    rw [placePath_of_arrayIndex hcare harray (arrayIndex_of_deleteIndex hindex), placePath,
      if_pos rfl, List.append_nil]
  rcases Edits.delete_cases h with ⟨index, _, hindex, hremove, -⟩ |
    ⟨-, index, _, hindex, hremove, -⟩
  · exact .inl ⟨index, (removeSlot_ok hremove).1, hplace (by decide) hindex⟩
  · exact .inr ⟨index, (removeSlot_ok hremove).1, hplace (by decide) hindex⟩

/-! ### Accepted responses -/

namespace Operations

/-- The paths of all operations. -/
def paths (ops : Operations) : List Str :=
  ops.sets.map (·.path) ++ ops.adds.map (·.path) ++ ops.deletes.map (·.path)

/-- The edits before a `delete`: after all of `set`, all of `add` and the given deletes. -/
def editsBefore (b64 : Base64) (session : Session) (ops : Operations)
    (deletes : List DeleteOp) : Result Edits := do
  let a ← ops.sets.foldlM (applySet b64 session ops.hasRaw) { edits := Edits.new session }
  let added ← ops.adds.foldlM (applyAdd session ops.hasRaw) a.edits
  deletes.foldlM (applyDelete ops.hasRaw) added

/-- The paths of a response are those of its operations. -/
theorem mem_paths {ops : Operations} {path : Str} :
    path ∈ ops.paths ↔ (∃ op ∈ ops.sets, op.path = path) ∨ (∃ op ∈ ops.adds, op.path = path) ∨
      ∃ op ∈ ops.deletes, op.path = path := by
  simp [paths]

end Operations

/-- Every operation uses a documented path, of an element that exists at that point, and no two
    paths name one place of one array. -/
structure DocumentedPaths (b64 : Base64) (session : Session) (ops : Operations) : Prop where
  sets : ∀ op ∈ ops.sets, DocumentedSet session.message.headers.length op.path
  adds : ∀ op ∈ ops.adds, DocumentedAdd op.path
  deletes : ∀ before op after e, ops.deletes = before ++ op :: after →
    ops.editsBefore b64 session before = .ok e →
    DocumentedDelete e.headers.slots.length e.recipients.slots.length op.path
  distinct : ∀ p ∈ ops.paths, ∀ q ∈ ops.paths, ∀ array ∈ arrays, ∀ place,
    arrayIndex p array = some place → arrayIndex q array = some place → p = q

/-- **The paths of an accepted response** without a raw replacement are documented iff none of
    them is careless. -/
theorem translate_paths_iff {b64 : Base64} {value : Json} {session : Session} {stage : Stage}
    {ops : Operations} {d : Decision} (hops : Operations.fromValue value = some ops)
    (hraw : ops.hasRaw = false) (h : translate b64 value session stage = .ok d) :
    DocumentedPaths b64 session ops ↔ ∀ path ∈ ops.paths, careless path = false := by
  obtain ⟨ops', a, added, edits, modifications, extra, hops', ht⟩ := translate_ok h
  obtain rfl := Option.some.inj (hops.symm.trans hops')
  have hsets := ht.sets
  have hadds := ht.adds
  have hdeletes := ht.deletes
  rw [hraw] at hsets hadds hdeletes
  -- The edits before a `delete` are those the loop has reached.
  have hbefore : ∀ before, ops.editsBefore b64 session before =
      before.foldlM (applyDelete false) added := by
    intro before
    rw [Operations.editsBefore, hraw, hsets]
    change (ops.adds.foldlM (applyAdd session false) a.edits >>= _) = _
    rw [hadds]
    rfl
  constructor
  · intro hdoc path hpath
    rcases Operations.mem_paths.mp hpath with ⟨op, hop, rfl⟩ | ⟨op, hop, rfl⟩ | ⟨op, hop, rfl⟩
    · exact careless_of_documentedSet (hdoc.sets op hop)
    · exact careless_of_documentedAdd (hdoc.adds op hop)
    · obtain ⟨before, after, hsplit⟩ := List.append_of_mem hop
      rw [hsplit] at hdeletes
      obtain ⟨e, _, he, -⟩ := Result.foldlM_ok_append hdeletes
      have hdelete := hdoc.deletes before op after e hsplit ((hbefore before).trans he)
      exact careless_of_documentedDelete hdelete
  · intro hcare
    refine ⟨fun op hop => ?_, fun op hop => ?_, fun before op after e hsplit he => ?_, ?_⟩
    · have hpath : careless op.path = false :=
        hcare _ (Operations.mem_paths.mpr (.inl ⟨op, hop, rfl⟩))
      have hne : op.path ≠ ascii "/rawMessage" := by
        have hany := List.any_eq_false.mp hraw op hop
        simpa using hany
      obtain ⟨_, _, hstep⟩ := Result.foldlM_ok_mem hsets hop
      exact applySet_path hne hpath hstep
    · obtain ⟨_, _, hstep⟩ := Result.foldlM_ok_mem hadds hop
      exact Edits.add_path hstep
    · have hop : op ∈ ops.deletes := by simp [hsplit]
      have hpath : careless op.path = false :=
        hcare _ (Operations.mem_paths.mpr (.inr (.inr ⟨op, hop, rfl⟩)))
      rw [hbefore before] at he
      rw [hsplit] at hdeletes
      obtain ⟨e', _, he', hstep, -⟩ := Result.foldlM_ok_append hdeletes
      obtain rfl : e = e' := Except.ok.inj (he.symm.trans he')
      exact Edits.delete_path hpath hstep
    · intro p hp q hq array harray place hplace hplace'
      exact arrayIndex_injective harray (hcare p hp) (hcare q hq) hplace hplace'

/-- A leading zero, and a slash behind the index. -/
def strayDeletes : Json :=
  Sample.response [] []
    [Sample.deleteOp "/message/headers/01", Sample.deleteOp "/message/headers/0/"]

/-- Two headers. -/
def pathHeaders : Session := Sample.atEnd ["<b>"] [("A", "1"), ("B", "2")]

/-- Both headers are deleted. -/
theorem strayDeletes_accepted :
    ∃ ops d, Operations.fromValue strayDeletes = some ops ∧ ops.hasRaw = false ∧
      translate Sample.base64 strayDeletes pathHeaders .endMessage = .ok d ∧
      d.modifications = [.changeHeader 1 "B" [], .changeHeader 1 "A" []] ∧
      ¬ DocumentedPaths Sample.base64 pathHeaders ops := by
  refine ⟨⟨some [], some [], some [⟨"/message/headers/01"⟩, ⟨"/message/headers/0/"⟩]⟩,
    { modifications := [.changeHeader 1 "B" [], .changeHeader 1 "A" []] }, rfl, rfl,
    by decide +kernel, rfl, fun hdoc => ?_⟩
  have hdelete := hdoc.deletes [] ⟨"/message/headers/01"⟩ [⟨"/message/headers/0/"⟩] _ rfl rfl
  have hcareless : careless (ascii "/message/headers/01") = true := by decide +kernel
  exact nomatch hcareless.symm.trans (careless_of_documentedDelete hdelete)

/-- A change by value, an addition and two deletes. -/
def neatPaths : Json :=
  Sample.response [Sample.setOp "/message/headers/1/value" (.string "3")]
    [Sample.addOp "/envelope/to" 0 (.ofFields [("address", .string "c")])]
    [Sample.deleteOp "/message/headers/0", Sample.deleteOp "/envelope/to/1"]

/-- The paths of the sample are documented. -/
theorem translate_paths_iff_at_neatPaths :
    ∃ ops, Operations.fromValue neatPaths = some ops ∧
      DocumentedPaths Sample.base64 pathHeaders ops := by
  obtain ⟨ops, hops⟩ := Option.isSome_iff_exists.mp
    (by decide +kernel : (Operations.fromValue neatPaths).isSome = true)
  have hraw : ops.hasRaw = false := by
    have hall : (Operations.fromValue neatPaths).all (·.hasRaw == false) = true := by
      decide +kernel
    rw [hops] at hall
    exact beq_iff_eq.mp hall
  have hcare : ∀ path ∈ ops.paths, careless path = false := by
    have hall : (Operations.fromValue neatPaths).all
        (fun ops => ops.paths.all (careless · == false)) = true := by decide +kernel
    rw [hops] at hall
    intro path hpath
    exact beq_iff_eq.mp (List.all_eq_true.mp hall path hpath)
  have htranslate : translate Sample.base64 neatPaths pathHeaders .endMessage =
      .ok { modifications := [.changeHeader 1 "B" "3", .changeHeader 1 "A" [],
        .deleteRecipient "<b>", .addRecipient "<c>" none] } := by decide +kernel
  exact ⟨ops, hops, (translate_paths_iff hops hraw htranslate).mpr hcare⟩

end Hooks

end MtaHooks
