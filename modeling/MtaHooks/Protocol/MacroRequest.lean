import MtaHooks.Protocol.Codec
import Mathlib.Data.List.Induction

namespace MtaHooks

/-!
# Macro-list requests read back

The macro lists follow the option words of the negotiation reply: for every class its number,
then its names in one NUL-terminated string.  A class number has NUL bytes of its own, so the
block is read record by record.

* `readRecords` — the reader of the block.
* `MacroLists.encode_read` — a block that is sent reads back as the requested names.
* `frameWithMacros_reads` — the reply, and exactly when it fails.
-/

/-! ### The reader -/

/-- One record: four bytes of a class number and a NUL-terminated string. -/
def readRecord : Bytes → Option ((UInt32 × Str) × Bytes)
  | w :: x :: y :: z :: rest =>
    (splitOnce 0 rest).map fun (list, rest) => ((fromBeBytes w x y z, list), rest)
  | _ => none

/-- A number of records, and what stands behind them. -/
def readRecords : ℕ → Bytes → Option (List (UInt32 × Str) × Bytes)
  | 0, p => some ([], p)
  | n + 1, p => do
    let (r, p) ← readRecord p
    let (records, p) ← readRecords n p
    return (r :: records, p)

/-- The names of a space-separated list; the empty string is the empty list. -/
def names (list : Str) : List Str := if list = [] then [] else list.splitOn (byte ' ')

/-- A record as it is written. -/
def recordBytes (r : UInt32 × Str) : Bytes := toBeBytes r.1 ++ r.2 ++ [0]

/-- A record is read back, and the rest is left. -/
theorem readRecord_recordBytes {r : UInt32 × Str} (h : (0 : UInt8) ∉ r.2) (rest : Bytes) :
    readRecord (recordBytes r ++ rest) = some (r, rest) := by
  obtain ⟨number, list⟩ := r
  have hsplit : splitOnce 0 (list ++ 0 :: rest) = some (list, rest) :=
    splitOnce_eq_some.mpr ⟨rfl, h⟩
  obtain ⟨w, x, y, z, hbytes⟩ : ∃ w x y z, toBeBytes number = [w, x, y, z] := ⟨_, _, _, _, rfl⟩
  simp only [recordBytes, hbytes, List.cons_append, List.nil_append, List.append_assoc,
    readRecord, hsplit, Option.map_some, fromBeBytes_toBeBytes hbytes]

/-- **Records are read back** one after the other, with any bytes behind them. -/
theorem readRecords_recordBytes {records : List (UInt32 × Str)}
    (h : ∀ r ∈ records, (0 : UInt8) ∉ r.2) (rest : Bytes) :
    readRecords records.length (records.flatMap recordBytes ++ rest) = some (records, rest) := by
  induction records with
  | nil => rfl
  | cons r records ih =>
    have hr : (0 : UInt8) ∉ r.2 := h r List.mem_cons_self
    have hrecords := ih fun r hr => h r (List.mem_cons_of_mem _ hr)
    rw [List.flatMap_cons, List.append_assoc, List.length_cons, readRecords,
      readRecord_recordBytes hr]
    simp only [Option.bind_eq_bind, Option.bind_some, hrecords]
    rfl

/-! ### Names -/

/-- A name that may be requested. -/
def MacroName (name : Str) : Prop :=
  name ≠ [] ∧ ∀ c ∈ name, isAsciiWhitespace c = false ∧ isAsciiControl c = false

/-- A name of a macro has no terminator. -/
theorem MacroName.zero_not_mem {name : Str} (h : MacroName name) : (0 : UInt8) ∉ name := by
  intro hmem
  exact absurd (h.2 0 hmem).2 (by decide)

/-- A name of a macro has no space. -/
theorem MacroName.space_not_mem {name : Str} (h : MacroName name) : byte ' ' ∉ name := by
  intro hmem
  exact absurd (h.2 _ hmem).1 (by decide)

/-- The names in one string, with a space between them. -/
def joined (ns : List Str) : Str := [byte ' '].intercalate ns

/-- The names of a class are read back from their string. -/
theorem names_joined {ns : List Str} (h : ∀ name ∈ ns, MacroName name) :
    names (joined ns) = ns := by
  cases ns with
  | nil => rfl
  | cons name ns =>
    have hne : joined (name :: ns) ≠ [] := by
      have hname := (h name List.mem_cons_self).1
      cases ns <;> simp [joined, List.intercalate, hname]
    have hspace : ∀ l ∈ name :: ns, byte ' ' ∉ l := fun l hl => (h l hl).space_not_mem
    rw [names, if_neg hne, joined, List.splitOn_intercalate _ hspace (List.cons_ne_nil _ _)]

/-- Only no names are joined to nothing. -/
theorem joined_eq_nil {ns : List Str} (h : ∀ name ∈ ns, MacroName name) :
    joined ns = [] ↔ ns = [] := by
  constructor
  · intro hnil
    rw [← names_joined h, hnil]
    rfl
  · rintro rfl
    rfl

/-- A further name is joined by a space. -/
theorem joined_append_singleton {ns : List Str} (hne : ns ≠ []) (name : Str) :
    joined (ns ++ [name]) = joined ns ++ [byte ' '] ++ name := by
  induction ns with
  | nil => exact absurd rfl hne
  | cons first ns ih =>
    cases ns with
    | nil => simp [joined, List.intercalate]
    | cons second ns =>
      have hrest := ih (by simp)
      simp only [joined, List.intercalate, List.cons_append, List.intersperse_cons_cons,
        List.flatten_cons, List.append_assoc] at hrest ⊢
      rw [hrest]

/-- Joined names have no terminator. -/
theorem zero_not_mem_joined {ns : List Str} (h : ∀ name ∈ ns, MacroName name) :
    (0 : UInt8) ∉ joined ns := by
  induction ns using List.reverseRecOn with
  | nil => exact List.not_mem_nil
  | append_singleton ns name ih =>
    have hname : (0 : UInt8) ∉ name := (h name (by simp)).zero_not_mem
    have hfront := ih fun name hmem => h name (by simp [hmem])
    by_cases hne : ns = []
    · simpa [hne, joined, List.intercalate] using hname
    · have hspace : (0 : UInt8) ≠ byte ' ' := by decide
      rw [joined_append_singleton hne]
      simp [hfront, hname, hspace]

namespace MacroLists

/-- A name is appended with a space before it, unless it is the first. -/
theorem pushName_joined {ns : List Str} (h : ∀ name ∈ ns, MacroName name) {name list : Str} :
    pushName (joined ns) name = .ok list ↔ MacroName name ∧ list = joined (ns ++ [name]) := by
  have hlist : (if (joined ns).isEmpty then joined ns else joined ns ++ [byte ' ']) ++ name =
      joined (ns ++ [name]) := by
    by_cases hne : ns = []
    · simp [hne, joined, List.intercalate]
    · have hjoined : joined ns ≠ [] := fun hnil => hne ((joined_eq_nil h).mp hnil)
      rw [joined_append_singleton hne, List.isEmpty_eq_false_iff.mpr hjoined]
      rfl
  have hname : (name.isEmpty || name.any fun c =>
      c == 0 || isAsciiWhitespace c || isAsciiControl c) = false ↔ MacroName name := by
    simp only [Bool.or_eq_false_iff, List.isEmpty_eq_false_iff, List.any_eq_false, MacroName,
      Bool.not_eq_true]
    refine and_congr_right fun _ => forall₂_congr fun c _ => ?_
    constructor
    · exact fun hc => ⟨hc.1.2, hc.2⟩
    · intro hc
      refine ⟨⟨?_, hc.1⟩, hc.2⟩
      -- A NUL is a control byte.
      rw [beq_eq_false_iff_ne]
      rintro rfl
      exact absurd hc.2 (by decide)
  unfold pushName
  rw [hlist]
  cases hbad : name.isEmpty || name.any fun c =>
      c == 0 || isAsciiWhitespace c || isAsciiControl c with
  | false => simp [hname.mp hbad, eq_comm]
  | true =>
    have hnot : ¬ MacroName name := fun hgood => nomatch hbad.symm.trans (hname.mpr hgood)
    simp [hnot]

/-- The loop over the names of a class. -/
theorem foldlM_pushName {ns ms : List Str} (h : ∀ name ∈ ns, MacroName name) {list : Str} :
    ms.foldlM pushName (joined ns) = .ok list ↔
      (∀ name ∈ ms, MacroName name) ∧ list = joined (ns ++ ms) := by
  induction ms generalizing ns with
  | nil =>
    rw [List.foldlM_nil, List.append_nil]
    constructor
    · intro hok
      exact ⟨fun _ hmem => (nomatch hmem), (Except.ok.inj hok).symm⟩
    · rintro ⟨-, rfl⟩
      rfl
  | cons name ms ih =>
    rw [List.foldlM_cons, Result.bind_ok_iff]
    constructor
    · rintro ⟨list', hpush, hrest⟩
      obtain ⟨hname, rfl⟩ := (pushName_joined h).mp hpush
      have hns : ∀ n ∈ ns ++ [name], MacroName n := by
        simpa [or_imp, forall_and] using ⟨h, hname⟩
      obtain ⟨hms, rfl⟩ := (ih hns).mp hrest
      refine ⟨fun n hn => ?_, by simp⟩
      rcases List.mem_cons.mp hn with rfl | hn
      · exact hname
      · exact hms n hn
    · rintro ⟨hall, rfl⟩
      have hname := hall name List.mem_cons_self
      have hns : ∀ n ∈ ns ++ [name], MacroName n := by
        simpa [or_imp, forall_and] using ⟨h, hname⟩
      refine ⟨_, (pushName_joined h).mpr ⟨hname, rfl⟩, (ih hns).mpr ⟨?_, by simp⟩⟩
      exact fun n hn => hall n (List.mem_cons_of_mem _ hn)

/-! ### Classes -/

/-- The names requested for a class, over all its entries in order. -/
def requested (m : MacroLists) (stage : MacroStage) : List Str :=
  (m.filter fun e => e.1 = stage).flatMap (·.2)

/-- A name is requested at a stage if an entry of the stage has it. -/
theorem mem_requested {m : MacroLists} {stage : MacroStage} {name : Str} :
    name ∈ m.requested stage ↔ ∃ e ∈ m, e.1 = stage ∧ name ∈ e.2 := by
  simp only [requested, List.mem_flatMap, List.mem_filter, decide_eq_true_eq, and_assoc]

/-- Entries one after the other are the loop over all their names. -/
theorem foldlM_entries (entries : MacroLists) (list : Str) :
    entries.foldlM (fun list e => e.2.foldlM pushName list) list =
      (entries.flatMap (·.2)).foldlM pushName list := by
  induction entries generalizing list with
  | nil => rfl
  | cons e entries ih =>
    rw [List.foldlM_cons, List.flatMap_cons, List.foldlM_append]
    exact bind_congr ih

/-- **The string of a class** is its names, each of them valid. -/
theorem classList_eq_ok {m : MacroLists} {stage : MacroStage} {list : Str} :
    m.classList stage = .ok list ↔
      (∀ name ∈ m.requested stage, MacroName name) ∧ list = joined (m.requested stage) := by
  have hnil : ∀ name ∈ ([] : List Str), MacroName name := fun _ hmem => nomatch hmem
  have hloop := @foldlM_pushName [] (m.requested stage) hnil list
  rwa [List.nil_append, requested, ← foldlM_entries] at hloop

/-- The record of a class. -/
def classRecord (m : MacroLists) (stage : MacroStage) : UInt32 × Str :=
  (stage.toUInt32, joined (m.requested stage))

/-- The loop over the classes. -/
theorem foldlM_classes {m : MacroLists} {stages : List MacroStage} {out block : Bytes} :
    stages.foldlM (fun out stage => do
        let list ← m.classList stage
        return out ++ toBeBytes stage.toUInt32 ++ list ++ [0]) out = (.ok block : Result Bytes) ↔
      (∀ stage ∈ stages, ∀ name ∈ m.requested stage, MacroName name) ∧
        block = out ++ (stages.map m.classRecord).flatMap recordBytes := by
  induction stages generalizing out with
  | nil =>
    rw [List.foldlM_nil, List.map_nil, List.flatMap_nil, List.append_nil]
    constructor
    · intro hok
      exact ⟨fun _ hmem => (nomatch hmem), (Except.ok.inj hok).symm⟩
    · rintro ⟨-, rfl⟩
      rfl
  | cons stage stages ih =>
    have hrecord : ∀ out : Bytes,
        out ++ toBeBytes stage.toUInt32 ++ joined (m.requested stage) ++ [0] =
          out ++ recordBytes (m.classRecord stage) := by
      intro out
      simp [recordBytes, classRecord]
    rw [List.foldlM_cons, Result.bind_ok_iff]
    constructor
    · rintro ⟨out', hstep, hrest⟩
      obtain ⟨list, hlist, hstep⟩ := Result.bind_ok_iff.mp hstep
      obtain ⟨hnames, rfl⟩ := classList_eq_ok.mp hlist
      obtain rfl := Except.ok.inj hstep
      obtain ⟨hall, rfl⟩ := ih.mp hrest
      refine ⟨List.forall_mem_cons.mpr ⟨hnames, hall⟩, ?_⟩
      rw [hrecord, List.map_cons, List.flatMap_cons, List.append_assoc]
    · rintro ⟨hall, rfl⟩
      obtain ⟨hnames, hall⟩ := List.forall_mem_cons.mp hall
      refine ⟨_, Result.bind_ok_iff.mpr ⟨_, classList_eq_ok.mpr ⟨hnames, rfl⟩, rfl⟩,
        ih.mpr ⟨hall, ?_⟩⟩
      rw [hrecord, List.map_cons, List.flatMap_cons, List.append_assoc]

/-- Every requested name is valid. -/
def Names (m : MacroLists) : Prop := ∀ e ∈ m, ∀ name ∈ e.2, MacroName name

/-- The classes cover every entry. -/
theorem names_iff {m : MacroLists} :
    m.Names ↔ ∀ stage ∈ MacroStage.all, ∀ name ∈ m.requested stage, MacroName name := by
  have hall : ∀ stage : MacroStage, stage ∈ MacroStage.all := by
    intro stage
    cases stage <;> decide
  constructor
  · intro h stage _ name hname
    obtain ⟨e, he, -, hmem⟩ := mem_requested.mp hname
    exact h e he name hmem
  · intro h e he name hmem
    exact h e.1 (hall e.1) name (mem_requested.mpr ⟨e, he, rfl, hmem⟩)

/-- **The block of a request**: the records of all classes, if every name is valid. -/
theorem encode_eq_ok {m : MacroLists} {block : Bytes} :
    m.encode = .ok block ↔
      m.Names ∧ block = (MacroStage.all.map m.classRecord).flatMap recordBytes := by
  rw [names_iff, encode, foldlM_classes, List.nil_append]

/-- The block reads back as the requested names of all classes. -/
theorem encode_read {m : MacroLists} (h : m.Names) (rest : Bytes) :
    readRecords 7 ((MacroStage.all.map m.classRecord).flatMap recordBytes ++ rest) =
        some (MacroStage.all.map m.classRecord, rest) ∧
      ∀ stage, names (joined (m.requested stage)) = m.requested stage := by
  have hvalid : ∀ stage, ∀ name ∈ m.requested stage, MacroName name := by
    intro stage name hname
    obtain ⟨e, he, -, hmem⟩ := mem_requested.mp hname
    exact h e he name hmem
  constructor
  · show readRecords (MacroStage.all.map m.classRecord).length _ = _
    apply readRecords_recordBytes
    intro r hr
    obtain ⟨stage, -, rfl⟩ := List.mem_map.mp hr
    exact zero_not_mem_joined (hvalid stage)
  · exact fun stage => names_joined (hvalid stage)

end MacroLists

/-- **A request of macro names reads back as it was asked**: behind the option words stand the
    classes 0 to 6, each once and in order, with the requested names; and the reply fails iff a
    name is empty or has a whitespace or control byte. -/
theorem frameWithMacros_reads (o : Options) {m : MacroLists} (hnames : ∃ e ∈ m, e.2 ≠ []) :
    (∀ f, o.frameWithMacros m = .ok f → f.command = byte 'O' ∧
      ∃ block records, f.payload = o.frame.payload ++ block ∧ o.frame.payload.length = 12 ∧
        readRecords 7 block = some (records, []) ∧ records.map (·.1) = [0, 1, 2, 3, 4, 5, 6] ∧
        records.map (fun r => (r.1, names r.2)) =
          MacroStage.all.map fun stage => (stage.toUInt32, m.requested stage)) ∧
      ((∃ e, o.frameWithMacros m = .error e) ↔ ∃ e ∈ m, ∃ name ∈ e.2, name = [] ∨
        ∃ c ∈ name, isAsciiWhitespace c = true ∨ isAsciiControl c = true) := by
  have hsome : m.isEmpty = false := by
    obtain ⟨e, he, hne⟩ := hnames
    rw [MacroLists.isEmpty, List.all_eq_false]
    exact ⟨e, he, by simpa using hne⟩
  have hframe : o.frameWithMacros m = m.encode >>= fun lists =>
      .ok { o.frame with payload := o.frame.payload ++ lists } := by
    rw [Options.frameWithMacros, hsome]
    rfl
  constructor
  · intro f hf
    rw [hframe] at hf
    obtain ⟨block, hblock, hf⟩ := Result.bind_ok_iff.mp hf
    obtain ⟨hvalid, rfl⟩ := MacroLists.encode_eq_ok.mp hblock
    obtain rfl := Except.ok.inj hf
    obtain ⟨hread, hback⟩ := MacroLists.encode_read hvalid []
    rw [List.append_nil] at hread
    refine ⟨rfl, _, _, rfl, rfl, hread, rfl, ?_⟩
    rw [List.map_map]
    exact List.map_congr_left fun stage _ => congrArg (Prod.mk _) (hback stage)
  · have hfails : (∃ e, o.frameWithMacros m = .error e) ↔ ¬ m.Names := by
      rw [hframe]
      cases hencode : m.encode with
      | ok block =>
        have hvalid := (MacroLists.encode_eq_ok.mp hencode).1
        constructor
        · rintro ⟨e, he⟩
          exact nomatch he
        · exact fun hnot => absurd hvalid hnot
      | error e =>
        have hnot : ¬ m.Names := fun hvalid =>
          nomatch hencode.symm.trans (MacroLists.encode_eq_ok.mpr ⟨hvalid, rfl⟩)
        exact ⟨fun _ => hnot, fun _ => ⟨e, rfl⟩⟩
    rw [hfails]
    simp only [MacroLists.Names, MacroName, not_forall, not_and_or, exists_prop, not_not,
      Bool.not_eq_false, ne_eq]

/-- Two entries of one class around an empty one. -/
def sampleRequest : MacroLists :=
  [(.endMessage, ["i"]), (.connect, ["j", "{client_addr}"]), (.mail, []),
    (.connect, ["{client_ptr}"])]

/-- The MTA reads the requests of the sample back. -/
theorem frameWithMacros_reads_at_sampleRequest :
    ∃ f block records, Options.frameWithMacros ⟨6, 0, 0⟩ sampleRequest = .ok f ∧
      f.payload = (Options.frame ⟨6, 0, 0⟩).payload ++ block ∧
      readRecords 7 block = some (records, []) ∧
      records.map (fun r => (r.1, names r.2)) =
        [(0, [ascii "j", ascii "{client_addr}", ascii "{client_ptr}"]), (1, []), (2, []), (3, []),
          (4, []), (5, [ascii "i"]), (6, [])] := by
  have hok : ∃ f, Options.frameWithMacros ⟨6, 0, 0⟩ sampleRequest = .ok f := by
    have hvalid : (match Options.frameWithMacros ⟨6, 0, 0⟩ sampleRequest with
      | .ok _ => true
      | .error _ => false) = true := by decide +kernel
    split at hvalid
    next f hf => exact ⟨f, hf⟩
    · exact nomatch hvalid
  obtain ⟨f, hf⟩ := hok
  obtain ⟨-, block, records, hpayload, -, hread, -, hback⟩ :=
    (frameWithMacros_reads ⟨6, 0, 0⟩ (m := sampleRequest)
      ⟨_, List.mem_cons_self, by decide⟩).1 f hf
  have hrequested :
      (MacroStage.all.map fun stage => (stage.toUInt32, sampleRequest.requested stage)) =
        [(0, [ascii "j", ascii "{client_addr}", ascii "{client_ptr}"]), (1, []), (2, []), (3, []),
          (4, []), (5, [ascii "i"]), (6, [])] := by decide +kernel
  exact ⟨f, block, records, hf, hpayload, hread, hback.trans hrequested⟩

end MtaHooks
