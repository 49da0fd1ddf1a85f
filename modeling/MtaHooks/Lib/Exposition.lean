import Mathlib.Data.List.Nodup
import Mathlib.Tactic.Common

namespace Exposition

/-!
# A text format for metrics

A text of lines.  A line declares the type of a metric or gives the value of a series, which is
a metric with labels: `name{key="value",...} number`.  Label values are written as they are.

* `read_text` — reading a text gives its lines back, if no part of a line holds a mark that ends
  the part;
* `value_of_mem` — looking a series up finds its value, if no series is given twice;
* `Declared` — every series comes after the declaration of its metric.
-/

/-- A text is its bytes. -/
abbrev Text := List UInt8

/-! ### Marks -/

/-- The byte that ends a line. -/
def newline : UInt8 := 10
/-- The byte between the parts of a line. -/
def space : UInt8 := 32
/-- The byte around the value of a label. -/
def quote : UInt8 := 34
/-- The byte that starts a declaration. -/
def hash : UInt8 := 35
/-- The byte between two labels. -/
def comma : UInt8 := 44
/-- The byte between the key of a label and its value. -/
def equals : UInt8 := 61
/-- The byte in front of the labels. -/
def opening : UInt8 := 123
/-- The byte behind the labels. -/
def closing : UInt8 := 125

/-! ### Lines -/

/-- A line of the text. -/
inductive Line
  | type (name kind : Text)
  | sample (name : Text) (labels : List (Text × Text)) (value : Text)
  deriving DecidableEq

/-- `# TYPE `. -/
def typeMark : Text := [hash, space, 84, 89, 80, 69, space]

/-- A label, its value in quotes. -/
def labelText (label : Text × Text) : Text :=
  label.1 ++ equals :: quote :: label.2 ++ [quote]

/-- The labels after the first. -/
def moreText : List (Text × Text) → Text
  | [] => [closing]
  | label :: labels => comma :: labelText label ++ moreText labels

/-- The labels in braces; no braces without a label. -/
def labelsText : List (Text × Text) → Text
  | [] => []
  | label :: labels => opening :: labelText label ++ moreText labels

/-- A line without its end. -/
def Line.text : Line → Text
  | .type name kind => typeMark ++ name ++ space :: kind
  | .sample name labels value => name ++ labelsText labels ++ space :: value

/-- The text of some lines. -/
def text (ls : List Line) : Text := ls.flatMap fun l => l.text ++ [newline]

@[simp] theorem text_nil : text [] = [] := rfl

/-- A text with one more line in front. -/
theorem text_cons (l : Line) (ls : List Line) : text (l :: ls) = l.text ++ newline :: text ls := by
  simp [text]

/-- The text of two lists of lines, one behind the other. -/
theorem text_append (ls ls' : List Line) : text (ls ++ ls') = text ls ++ text ls' := by
  simp [text]

/-! ### The reader -/

/-- What stands before the first of some marks, and what from there on. -/
def cut (marks : List UInt8) (s : Text) : Text × Text :=
  (s.takeWhile fun c => !marks.contains c, s.dropWhile fun c => !marks.contains c)

/-- A label, and the text behind it. -/
def readLabel (s : Text) : Option ((Text × Text) × Text) :=
  match cut [equals] s with
  | (key, _ :: q :: rest) =>
    if q = quote then
      match cut [quote] rest with
      | (value, _ :: rest) => some ((key, value), rest)
      | (_, []) => none
    else none
  | _ => none

/-- Labels up to the closing brace, the first `fuel` of them. -/
def readLabels : ℕ → Text → Option (List (Text × Text) × Text)
  | 0, _ => none
  | fuel + 1, s => do
    let (label, rest) ← readLabel s
    match rest with
    | [] => none
    | c :: rest =>
      if c = closing then some ([label], rest)
      else if c = comma then
        (readLabels fuel rest).map fun (labels, rest) => (label :: labels, rest)
      else none

/-- A sample: its name up to a brace or a space, its labels, its value. -/
def readSample (s : Text) : Option Line :=
  match cut [opening, space] s with
  | (_, []) => none
  | (name, c :: rest) =>
    if c = space then some (.sample name [] rest)
    else
      match readLabels rest.length rest with
      | some (labels, c :: value) => if c = space then some (.sample name labels value) else none
      | _ => none

/-- A line that starts with the mark of a declaration is one, any other is a sample. -/
def readLine (s : Text) : Option Line :=
  match s.dropPrefix? typeMark with
  | some rest =>
    match cut [space] rest with
    | (name, _ :: kind) => some (.type name kind)
    | (_, []) => none
  | none => readSample s

/-- The lines of a text, each with its end. -/
def split : Text → List Text
  | [] => []
  | c :: s =>
    if c = newline then [] :: split s
    else
      match split s with
      | [] => [[c]]
      | l :: ls => (c :: l) :: ls

/-- Read a text. -/
def read (s : Text) : Option (List Line) := (split s).mapM readLine

/-! ### Round trip -/

/-- No mark of the kind is in the text. -/
def Free (marks : List UInt8) (s : Text) : Prop := ∀ c ∈ s, marks.contains c = false

instance (marks : List UInt8) (s : Text) : Decidable (Free marks s) :=
  List.decidableBAll (fun c => marks.contains c = false) s

/-- No part of a line holds a mark that ends the part. -/
def Line.Plain : Line → Prop
  | .type name kind => Free [space, newline] name ∧ Free [newline] kind
  | .sample name labels value => Free [hash, opening, space, newline] name ∧
    (∀ label ∈ labels, Free [equals, newline] label.1 ∧ Free [quote, newline] label.2) ∧
    Free [newline] value

instance (l : Line) : Decidable l.Plain :=
  match l with
  | .type _ _ => inferInstanceAs (Decidable (_ ∧ _))
  | .sample _ _ _ => inferInstanceAs (Decidable (_ ∧ _ ∧ _))

/-- What is free of some bytes is free of fewer. -/
theorem Free.mono {marks marks' : List UInt8} {s : Text} (h : Free marks s)
    (hsub : marks'.all marks.contains = true) : Free marks' s := by
  intro c hc
  by_contra hmem
  have hmark : c ∈ marks' := by simpa using hmem
  have hfree := h c hc
  rw [List.all_eq_true.mp hsub c hmark] at hfree
  cases hfree

/-- A text is free of bytes if both its parts are. -/
theorem free_append {marks : List UInt8} {s t : Text} :
    Free marks (s ++ t) ↔ Free marks s ∧ Free marks t :=
  List.forall_mem_append

/-- A text is free of bytes if its first byte and its rest are. -/
theorem free_cons {marks : List UInt8} {c : UInt8} {s : Text} :
    Free marks (c :: s) ↔ marks.contains c = false ∧ Free marks s :=
  List.forall_mem_cons

/-- A text is cut at the first of the marks. -/
theorem cut_append {marks : List UInt8} {s : Text} (h : Free marks s) {c : UInt8}
    (hc : marks.contains c = true) (rest : Text) : cut marks (s ++ c :: rest) = (s, c :: rest) := by
  have hs : ∀ a ∈ s, (!marks.contains a) = true := fun a ha => by rw [h a ha]; rfl
  rw [cut, List.takeWhile_append_of_pos hs, List.dropWhile_append_of_pos hs, List.takeWhile_cons,
    List.dropWhile_cons, hc]
  simp

/-- A label is read back, and the rest of the line is left. -/
theorem readLabel_text {label : Text × Text} (hkey : Free [equals] label.1)
    (hvalue : Free [quote] label.2) (rest : Text) :
    readLabel (labelText label ++ rest) = some (label, rest) := by
  have hfirst : cut [equals] (labelText label ++ rest) =
      (label.1, equals :: quote :: (label.2 ++ quote :: rest)) := by
    simpa [labelText] using cut_append hkey (c := equals) (by decide)
      (quote :: (label.2 ++ quote :: rest))
  have hsecond : cut [quote] (label.2 ++ quote :: rest) = (label.2, quote :: rest) :=
    cut_append hvalue (by decide) rest
  simp [readLabel, hfirst, hsecond]

/-- The labels are read back, by induction on them. -/
theorem readLabels_text {label : Text × Text} {labels : List (Text × Text)}
    (hplain : ∀ l ∈ label :: labels, Free [equals] l.1 ∧ Free [quote] l.2) (rest : Text) {fuel : ℕ}
    (hfuel : labels.length < fuel) :
    readLabels fuel (labelText label ++ moreText labels ++ rest) =
      some (label :: labels, rest) := by
  induction labels generalizing label fuel with
  | nil =>
    obtain ⟨fuel, rfl⟩ := Nat.exists_eq_succ_of_ne_zero (Nat.ne_of_gt (Nat.zero_lt_of_lt hfuel))
    obtain ⟨hkey, hvalue⟩ := hplain label List.mem_cons_self
    rw [List.append_assoc, readLabels, readLabel_text hkey hvalue]
    simp [moreText]
  | cons next labels ih =>
    obtain ⟨fuel, rfl⟩ := Nat.exists_eq_succ_of_ne_zero (Nat.ne_of_gt (Nat.zero_lt_of_lt hfuel))
    obtain ⟨hkey, hvalue⟩ := hplain label List.mem_cons_self
    have hrest : readLabels fuel (labelText next ++ moreText labels ++ rest) =
        some (next :: labels, rest) :=
      ih (fun l hl => hplain l (List.mem_cons_of_mem _ hl)) (by simpa using hfuel)
    have hcomma : comma ≠ closing := by decide
    rw [List.append_assoc, readLabels, readLabel_text hkey hvalue]
    simp only [moreText, List.cons_append, Option.bind_eq_bind, Option.bind_some, if_neg hcomma,
      if_true, hrest, Option.map_some]

/-- The labels fit in the fuel. -/
theorem length_le_moreText (labels : List (Text × Text)) :
    labels.length < (moreText labels).length := by
  induction labels with
  | nil => simp [moreText]
  | cons label labels ih =>
    simp only [moreText, labelText, List.length_cons, List.length_append]
    omega

/-- A plain sample is read back. -/
theorem readSample_text {name : Text} {labels : List (Text × Text)} {value : Text}
    (h : (Line.sample name labels value).Plain) :
    readSample (Line.sample name labels value).text = some (.sample name labels value) := by
  obtain ⟨hname, hlabels, -⟩ := h
  have hfree : Free [opening, space] name := hname.mono (by decide)
  cases labels with
  | nil =>
    have hcut := cut_append hfree (c := space) (by decide) value
    simp [readSample, Line.text, labelsText, hcut]
  | cons label labels =>
    have hplain : ∀ l ∈ label :: labels, Free [equals] l.1 ∧ Free [quote] l.2 := fun l hl =>
      ⟨(hlabels l hl).1.mono (by decide), (hlabels l hl).2.mono (by decide)⟩
    let rest := labelText label ++ moreText labels ++ space :: value
    have hcut : cut [opening, space] (Line.sample name (label :: labels) value).text =
        (name, opening :: rest) := by
      simpa [Line.text, labelsText, rest] using cut_append hfree (c := opening) (by decide) rest
    have hlength : labels.length < rest.length := by
      have hmore := length_le_moreText labels
      simp only [rest, List.length_append]
      omega
    have hread : readLabels rest.length rest = some (label :: labels, space :: value) :=
      readLabels_text hplain (space :: value) hlength
    have hmark : opening ≠ space := by decide
    simp only [readSample, hcut, if_neg hmark, hread, if_true]

/-- A plain line is read back. -/
theorem readLine_text {l : Line} (h : l.Plain) : readLine l.text = some l := by
  cases l with
  | type name kind =>
    have hprefix : (Line.type name kind).text.dropPrefix? typeMark =
        some (name ++ space :: kind) := by
      simp [Line.text, List.dropPrefix?_eq_some_iff]
    have hcut : cut [space] (name ++ space :: kind) = (name, space :: kind) :=
      cut_append (h.1.mono (by decide)) (by decide) kind
    simp only [readLine, hprefix, hcut]
  | sample name labels value =>
    have hnone : (Line.sample name labels value).text.dropPrefix? typeMark = none := by
      by_contra hsome
      obtain ⟨rest, hsome⟩ := Option.ne_none_iff_exists'.mp hsome
      have hrest : (Line.sample name labels value).text = typeMark ++ rest := by
        simpa [List.dropPrefix?_eq_some_iff] using hsome
      -- A name does not start with the mark of a declaration.
      cases name with
      | nil =>
        cases labels with
        | nil => cases (List.cons.inj hrest).1
        | cons label labels => cases (List.cons.inj hrest).1
      | cons c name =>
        have hc : c = hash := (List.cons.inj hrest).1
        have hfree := h.1 c List.mem_cons_self
        rw [hc] at hfree
        cases hfree
    rw [readLine, hnone]
    exact readSample_text h

/-- A line without a line end in it is split off whole. -/
theorem split_append {l : Text} (h : Free [newline] l) (s : Text) :
    split (l ++ newline :: s) = l :: split s := by
  induction l with
  | nil => simp [split]
  | cons c l ih =>
    obtain ⟨hc, hl⟩ := free_cons.mp h
    have hne : c ≠ newline := by simpa using hc
    simp [split, hne, ih hl]

/-- A plain line has no line end in it. -/
theorem Line.Plain.free {l : Line} (h : l.Plain) : Free [newline] l.text := by
  cases l with
  | type name kind =>
    refine free_append.mpr ⟨free_append.mpr ⟨by decide, h.1.mono (by decide)⟩, ?_⟩
    exact free_cons.mpr ⟨by decide, h.2⟩
  | sample name labels value =>
    obtain ⟨hname, hlabels, hvalue⟩ := h
    have hlabel : ∀ l ∈ labels, Free [newline] (labelText l) := by
      intro l hl
      refine free_append.mpr ⟨free_append.mpr ⟨(hlabels l hl).1.mono (by decide), ?_⟩, by decide⟩
      exact free_cons.mpr ⟨by decide, free_cons.mpr ⟨by decide, (hlabels l hl).2.mono (by decide)⟩⟩
    have hmore : ∀ ls : List (Text × Text), (∀ l ∈ ls, Free [newline] (labelText l)) →
        Free [newline] (moreText ls) := by
      intro ls hls
      induction ls with
      | nil => decide
      | cons l ls ih =>
        obtain ⟨hl, hls⟩ := List.forall_mem_cons.mp hls
        exact free_append.mpr ⟨free_cons.mpr ⟨by decide, hl⟩, ih hls⟩
    refine free_append.mpr ⟨free_append.mpr ⟨hname.mono (by decide), ?_⟩,
      free_cons.mpr ⟨by decide, hvalue⟩⟩
    cases labels with
    | nil => exact fun c hc => absurd hc List.not_mem_nil
    | cons l ls =>
      obtain ⟨hl, hls⟩ := List.forall_mem_cons.mp hlabel
      exact free_append.mpr ⟨free_cons.mpr ⟨by decide, hl⟩, hmore ls hls⟩

/-- **Reading undoes writing.** -/
theorem read_text {ls : List Line} (h : ∀ l ∈ ls, l.Plain) : read (text ls) = some ls := by
  have hsplit : split (text ls) = ls.map Line.text := by
    induction ls with
    | nil => rfl
    | cons l ls ih =>
      obtain ⟨hl, hls⟩ := List.forall_mem_cons.mp h
      rw [text_cons, split_append hl.free, ih hls]
      rfl
  rw [read, hsplit, List.mapM_map]
  clear hsplit
  induction ls with
  | nil => rfl
  | cons l ls ih =>
    obtain ⟨hl, hls⟩ := List.forall_mem_cons.mp h
    rw [List.mapM_cons, ih hls]
    simp [readLine_text hl]

/-! ### Lookup -/

/-- The series of a line, and its value. -/
def Line.series : Line → Option ((Text × List (Text × Text)) × Text)
  | .type _ _ => none
  | .sample name labels value => some ((name, labels), value)

/-- The series that some lines give. -/
def keys (ls : List Line) : List (Text × List (Text × Text)) :=
  (ls.filterMap Line.series).map Prod.fst

/-- The keys of two lists of lines. -/
theorem keys_append (ls ls' : List Line) : keys (ls ++ ls') = keys ls ++ keys ls' := by
  simp [keys]

/-- The keys of lines that are made group by group. -/
theorem keys_flatMap {α : Type} (xs : List α) (f : α → List Line) :
    keys (xs.flatMap f) = xs.flatMap fun x => keys (f x) := by
  induction xs with
  | nil => rfl
  | cons x xs ih => rw [List.flatMap_cons, List.flatMap_cons, keys_append, ih]

/-- The value of a series. -/
def value (ls : List Line) (name : Text) (labels : List (Text × Text)) : Option Text :=
  (ls.filterMap Line.series).lookup (name, labels)

/-- Where the keys are distinct a sample is found under its own. -/
theorem value_of_mem {ls : List Line} (hnodup : (keys ls).Nodup) {name v : Text}
    {labels : List (Text × Text)} (hmem : .sample name labels v ∈ ls) :
    value ls name labels = some v := by
  have hseries : ((name, labels), v) ∈ ls.filterMap Line.series :=
    List.mem_filterMap.mpr ⟨_, hmem, rfl⟩
  unfold value
  unfold keys at hnodup
  generalize ls.filterMap Line.series = series at hnodup hseries
  induction series with
  | nil => cases hseries
  | cons s series ih =>
    obtain ⟨hfirst, hnodup⟩ := List.nodup_cons.mp hnodup
    rcases List.mem_cons.mp hseries with rfl | hseries
    · simp
    · have hne : ((name, labels) == s.1) = false := by
        rw [beq_eq_false_iff_ne]
        intro heq
        exact hfirst (List.mem_map.mpr ⟨_, hseries, heq⟩)
      rw [List.lookup_cons, hne]
      exact ih hnodup hseries

/-! ### Declarations -/

/-- `histogram`. -/
def histogram : Text := [104, 105, 115, 116, 111, 103, 114, 97, 109]

/-- `_bucket`, `_count` and `_sum`. -/
def histogramParts : List Text :=
  [[95, 98, 117, 99, 107, 101, 116], [95, 99, 111, 117, 110, 116], [95, 115, 117, 109]]

/-- The series of a declared metric: its own, or those of a histogram. -/
def Covers (metric : Text × Text) (name : Text) : Prop :=
  name = metric.1 ∨ metric.2 = histogram ∧ ∃ part ∈ histogramParts, name = metric.1 ++ part

instance (metric : Text × Text) (name : Text) : Decidable (Covers metric name) :=
  inferInstanceAs (Decidable (_ ∨ _))

/-- Every series comes after the one declaration of its metric, with `types` declared before. -/
def Declared : List (Text × Text) → List Line → Prop
  | _, [] => True
  | types, .type name kind :: ls =>
    name ∉ types.map Prod.fst ∧ Declared ((name, kind) :: types) ls
  | types, .sample name _ _ :: ls => (∃ metric ∈ types, Covers metric name) ∧ Declared types ls

instance decidableDeclared : ∀ types ls, Decidable (Declared types ls)
  | _, [] => inferInstanceAs (Decidable True)
  | types, .type name kind :: ls =>
    have := decidableDeclared ((name, kind) :: types) ls
    inferInstanceAs (Decidable (_ ∧ _))
  | types, .sample _ _ _ :: ls =>
    have := decidableDeclared types ls
    inferInstanceAs (Decidable (_ ∧ _))

/-- A line without labels and value. -/
def Line.bare : Line → Line
  | .type name kind => .type name kind
  | .sample name _ _ => .sample name [] []

/-- Labels and values do not matter to the declarations. -/
theorem declared_bare (types : List (Text × Text)) (ls : List Line) :
    Declared types (ls.map Line.bare) ↔ Declared types ls := by
  induction ls generalizing types with
  | nil => exact Iff.rfl
  | cons l ls ih =>
    cases l with
    | type name kind => exact and_congr_right' (ih _)
    | sample name labels value => exact and_congr_right' (ih _)

end Exposition
