import MtaHooks.Server.Stats
import MtaHooks.Lib.Exposition
import MtaHooks.Protocol.Decimal
import Mathlib.Data.List.DropRight

namespace MtaHooks

open Exposition (Line)

/-!
# The exported metrics

The text that `/metrics` shows.  A sum of durations is an `f64` in the source, which rounds, and
is shown as the shortest decimal number that stands for it.  That is left open here: `seconds`
is some text for the exact sum, and the results say no more of it than that it fits its line.

* `Stats.render_text` — the text is one of the exposition format;
* `Stats.Shown` — what a reader is to find in it, everything but the sums;
* `Stats.scraped` — a reader of the text finds every counter under its own series.
-/

/-! ### The text -/

/-- `BUCKETS`, as they are shown. -/
def bucketTexts : List String :=
  ["0.001", "0.005", "0.01", "0.025", "0.05", "0.1", "0.25", "0.5", "1", "5", "20", "60"]

/-- The bound of a bucket, as it is shown. -/
def bucketText (i : Fin bucketBounds.length) : String :=
  bucketTexts.get (i.cast (by decide))

/-- The nanoseconds of a decimal number of seconds. -/
def nanoseconds (s : Str) : ℕ :=
  match splitOnce (byte '.') s with
  | some (whole, fraction) =>
    digitsValue whole * 10 ^ 9 + digitsValue fraction * 10 ^ (9 - fraction.length)
  | none => digitsValue s * 10 ^ 9

/-- A bucket is shown with its bound. -/
theorem nanoseconds_bucketText (i : Fin bucketBounds.length) :
    nanoseconds (bucketText i) = bucketBounds.get i := by
  revert i
  decide

/-- `writeln!` of some pieces. -/
def writeln (pieces : List Str) : Str := pieces.flatten ++ ascii "\n"

variable (seconds : ℕ → Str)

namespace OperationStats

/-- What is written of one operation, line by line. -/
def written (operation : Str) (op : OperationStats) : List Str :=
  writeln [ascii "milter_operations_active\x7boperation=\"", operation, ascii "\"\x7d ",
    decimal op.active] ::
  writeln [ascii "milter_operations_total\x7boperation=\"", operation,
    ascii "\",outcome=\"success\"\x7d ", decimal op.values.success] ::
  (List.ofFn fun i => writeln [ascii "milter_operations_total\x7boperation=\"", operation,
    ascii "\",outcome=\"", ascii (failureKinds.get i), ascii "\"\x7d ",
    decimal (op.values.failures i)]) ++
  (List.ofFn fun i => writeln [
    ascii "milter_operation_duration_seconds_bucket\x7boperation=\"", operation,
    ascii "\",le=\"", ascii (bucketText i), ascii "\"\x7d ", decimal (op.values.buckets i)]) ++
  [writeln [ascii "milter_operation_duration_seconds_bucket\x7boperation=\"", operation,
      ascii "\",le=\"+Inf\"\x7d ", decimal op.values.count],
    writeln [ascii "milter_operation_duration_seconds_count\x7boperation=\"", operation,
      ascii "\"\x7d ", decimal op.values.count],
    writeln [ascii "milter_operation_duration_seconds_sum\x7boperation=\"", operation,
      ascii "\"\x7d ", seconds op.values.sum]]

/-- The text of an operation. -/
def render (operation : Str) (op : OperationStats) : Str := (op.written seconds operation).flatten

end OperationStats

namespace Stats

/-- The metrics without labels: name, kind and value. -/
def plain (stats : Stats) : List (String × String × ℕ) :=
  [("connections_active", "gauge", stats.active),
    ("connections_total", "counter", stats.connections),
    ("overload_total", "counter", stats.overload),
    ("messages_total", "counter", stats.messages),
    ("progress_total", "counter", stats.progress),
    -- Retained for compatibility: all connection-driver errors, not only syntax.
    ("protocol_errors_total", "counter", stats.errors),
    ("policy_errors_total", "counter", stats.policyErrors),
    ("hook_retries_total", "counter", stats.hookRetries),
    ("ready", "gauge", stats.ready.toNat)]

/-- The operations, with their names. -/
def operations (stats : Stats) : List (String × OperationStats) :=
  [("policy", stats.policy), ("registration", stats.registration), ("hook", stats.hook),
    ("registration_wait", stats.registrationWait), ("deregistration", stats.deregistration)]

/-- What is written, line by line or some lines at a time. -/
def written (stats : Stats) : List Str :=
  (stats.plain.map fun (name, kind, value) =>
    writeln [ascii "# TYPE milter_", ascii name, ascii " ", ascii kind, ascii "\nmilter_",
      ascii name, ascii " ", decimal value]) ++
  ascii "# TYPE milter_listener_up gauge\n" ::
  ([("tcp", (1 : UInt8)), ("unix", 2)].map fun (transport, id) =>
    writeln [ascii "milter_listener_up\x7btransport=\"", ascii transport, ascii "\"\x7d ",
      decimal (decide (stats.listener = id)).toNat]) ++
  ascii "# TYPE milter_drain_total counter\n" ::
  ([("graceful", stats.drainGraceful), ("forced", stats.drainForced)].map fun (outcome, value) =>
    writeln [ascii "milter_drain_total\x7boutcome=\"", ascii outcome, ascii "\"\x7d ",
      decimal value]) ++
  ascii "# TYPE milter_connection_failures_total counter\n" ::
  (List.ofFn fun i =>
    writeln [ascii "milter_connection_failures_total\x7bkind=\"", ascii (failureKinds.get i),
      ascii "\"\x7d ", decimal (stats.connectionFailures i)]) ++
  -- One literal in the source.
  ascii "# TYPE milter_operations_active gauge\n" ::
  ascii "# TYPE milter_operations_total counter\n" ::
  ascii "# TYPE milter_operation_duration_seconds histogram\n" ::
  stats.operations.map fun (name, op) => op.render seconds name

/-- The whole text. -/
def render (stats : Stats) : Str := (stats.written seconds).flatten

end Stats

/-! ### The lines -/

/-- A series of one operation. -/
def operationLine (name : String) (operation : Str) (more : List (Str × Str)) (value : Str) :
    Line :=
  .sample (ascii name) ((ascii "operation", operation) :: more) value

/-- The lines of an operation. -/
def OperationStats.lines (operation : Str) (op : OperationStats) : List Line :=
  operationLine "milter_operations_active" operation [] (decimal op.active) ::
  operationLine "milter_operations_total" operation [(ascii "outcome", ascii "success")]
    (decimal op.values.success) ::
  (List.ofFn fun i =>
    operationLine "milter_operations_total" operation
      [(ascii "outcome", ascii (failureKinds.get i))]
      (decimal (op.values.failures i))) ++
  (List.ofFn fun i =>
    operationLine "milter_operation_duration_seconds_bucket" operation
      [(ascii "le", ascii (bucketText i))] (decimal (op.values.buckets i))) ++
  [operationLine "milter_operation_duration_seconds_bucket" operation
      [(ascii "le", ascii "+Inf")] (decimal op.values.count),
    operationLine "milter_operation_duration_seconds_count" operation []
      (decimal op.values.count),
    operationLine "milter_operation_duration_seconds_sum" operation [] (seconds op.values.sum)]

namespace Stats

/-- The lines of a metric without labels. -/
def plainLines (name kind : String) (value : ℕ) : List Line :=
  [.type (ascii "milter_" ++ ascii name) (ascii kind),
    .sample (ascii "milter_" ++ ascii name) [] (decimal value)]

/-- The line of a listener. -/
def listenerLine (transport : String) (id : UInt8) (stats : Stats) : Line :=
  .sample (ascii "milter_listener_up") [(ascii "transport", ascii transport)]
    (decimal (decide (stats.listener = id)).toNat)

/-- The line of a way to drain. -/
def drainLine (outcome : String) (value : ℕ) : Line :=
  .sample (ascii "milter_drain_total") [(ascii "outcome", ascii outcome)] (decimal value)

/-- The line of a failure label. -/
def failureLine (stats : Stats) (i : Fin failureKinds.length) : Line :=
  .sample (ascii "milter_connection_failures_total") [(ascii "kind", ascii (failureKinds.get i))]
    (decimal (stats.connectionFailures i))

/-- The lines before those of the operations. -/
def serverLines (stats : Stats) : List Line :=
  (stats.plain.flatMap fun (name, kind, value) => plainLines name kind value) ++
  [.type (ascii "milter_listener_up") (ascii "gauge"),
    stats.listenerLine "tcp" 1, stats.listenerLine "unix" 2,
    .type (ascii "milter_drain_total") (ascii "counter"),
    drainLine "graceful" stats.drainGraceful, drainLine "forced" stats.drainForced,
    .type (ascii "milter_connection_failures_total") (ascii "counter")] ++
  List.ofFn stats.failureLine ++
  [.type (ascii "milter_operations_active") (ascii "gauge"),
    .type (ascii "milter_operations_total") (ascii "counter"),
    .type (ascii "milter_operation_duration_seconds") (ascii "histogram")]

/-- The lines of the text. -/
def lines (stats : Stats) : List Line :=
  stats.serverLines ++
  stats.operations.flatMap fun (name, op) => op.lines seconds name

end Stats

/-! ### The text is one of the format -/

/-- A line with its end. -/
def lineText (l : Line) : Str := l.text ++ [Exposition.newline]

/-- The text is that of its lines. -/
theorem text_eq (ls : List Line) : Exposition.text ls = (ls.map lineText).flatten := by
  rw [Exposition.text, List.flatMap_def]
  rfl

/-- What is written of a series with one label. -/
theorem writeln_one {front : Str} {name key label v : Str}
    (hfront : front = name ++ Exposition.opening :: key ++ [Exposition.equals, Exposition.quote]) :
    writeln [front, label, ascii "\"\x7d ", v] = lineText (.sample name [(key, label)] v) := by
  have hend : ascii "\"\x7d " =
      [Exposition.quote, Exposition.closing, Exposition.space] := by decide
  have hnewline : ascii "\n" = [Exposition.newline] := by decide
  simp [writeln, lineText, Line.text, Exposition.labelsText, Exposition.labelText,
    Exposition.moreText, hfront, hend, hnewline]

/-- What is written of a series with two labels. -/
theorem writeln_two {front middle : Str} {name key label key' label' v : Str}
    (hfront : front = name ++ Exposition.opening :: key ++ [Exposition.equals, Exposition.quote])
    (hmiddle : middle = Exposition.quote :: Exposition.comma :: key' ++
      [Exposition.equals, Exposition.quote]) :
    writeln [front, label, middle, label', ascii "\"\x7d ", v] =
      lineText (.sample name [(key, label), (key', label')] v) := by
  have hend : ascii "\"\x7d " =
      [Exposition.quote, Exposition.closing, Exposition.space] := by decide
  have hnewline : ascii "\n" = [Exposition.newline] := by decide
  simp [writeln, lineText, Line.text, Exposition.labelsText, Exposition.labelText,
    Exposition.moreText, hfront, hmiddle, hend, hnewline]

/-- A label that is written with its marks. -/
theorem writeln_fixed {front : Str} {label middle label' last v : Str}
    (hlast : last = middle ++ label' ++ ascii "\"\x7d ") :
    writeln [front, label, last, v] =
      writeln [front, label, middle, label', ascii "\"\x7d ", v] := by
  simp [writeln, hlast]

/-- The text of an operation is that of its lines. -/
theorem OperationStats.render_text (operation : Str) (op : OperationStats) :
    op.render seconds operation = Exposition.text (op.lines seconds operation) := by
  rw [text_eq, render]
  congr 1
  have hactive : writeln [ascii "milter_operations_active\x7boperation=\"", operation,
      ascii "\"\x7d ", decimal op.active] =
      lineText (operationLine "milter_operations_active" operation [] (decimal op.active)) :=
    writeln_one (by decide)
  have htotal (outcome v : Str) : writeln [ascii "milter_operations_total\x7boperation=\"",
      operation, ascii "\",outcome=\"", outcome, ascii "\"\x7d ", v] =
      lineText (operationLine "milter_operations_total" operation
        [(ascii "outcome", outcome)] v) :=
    writeln_two (by decide) (by decide)
  have hbucket (bound v : Str) : writeln [
      ascii "milter_operation_duration_seconds_bucket\x7boperation=\"", operation,
      ascii "\",le=\"", bound, ascii "\"\x7d ", v] =
      lineText (operationLine "milter_operation_duration_seconds_bucket" operation
        [(ascii "le", bound)] v) :=
    writeln_two (by decide) (by decide)
  have hcount : writeln [ascii "milter_operation_duration_seconds_count\x7boperation=\"",
      operation, ascii "\"\x7d ", decimal op.values.count] =
      lineText (operationLine "milter_operation_duration_seconds_count" operation []
        (decimal op.values.count)) :=
    writeln_one (by decide)
  have hsum : writeln [ascii "milter_operation_duration_seconds_sum\x7boperation=\"",
      operation, ascii "\"\x7d ", seconds op.values.sum] =
      lineText (operationLine "milter_operation_duration_seconds_sum" operation []
        (seconds op.values.sum)) :=
    writeln_one (by decide)
  have hsuccess (v : Str) : writeln [ascii "milter_operations_total\x7boperation=\"", operation,
      ascii "\",outcome=\"success\"\x7d ", v] =
      lineText (operationLine "milter_operations_total" operation
        [(ascii "outcome", ascii "success")] v) :=
    (writeln_fixed (by decide)).trans (htotal (ascii "success") v)
  have hinf (v : Str) : writeln [
      ascii "milter_operation_duration_seconds_bucket\x7boperation=\"", operation,
      ascii "\",le=\"+Inf\"\x7d ", v] =
      lineText (operationLine "milter_operation_duration_seconds_bucket" operation
        [(ascii "le", ascii "+Inf")] v) :=
    (writeln_fixed (by decide)).trans (hbucket (ascii "+Inf") v)
  simp only [written, lines, hactive, hsuccess, htotal, hbucket, hinf, hcount, hsum,
    List.map_append, List.map_cons, List.map_nil, List.map_ofFn, Function.comp_def]

/-- The text of a further line. -/
theorem text_cons (l : Line) (ls : List Line) :
    Exposition.text (l :: ls) = lineText l ++ Exposition.text ls := by
  rw [Exposition.text_cons, lineText, List.append_assoc]
  rfl

/-- The text of several groups of lines. -/
theorem text_flatMap {α : Type} (xs : List α) (f : α → List Line) :
    Exposition.text (xs.flatMap f) = (xs.map fun x => Exposition.text (f x)).flatten := by
  rw [Exposition.text, List.flatMap_assoc, List.flatMap_def]
  rfl

namespace Stats

/-- What is written of a metric without labels. -/
theorem writeln_plain (name kind : String) (value : ℕ) :
    writeln [ascii "# TYPE milter_", ascii name, ascii " ", ascii kind, ascii "\nmilter_",
      ascii name, ascii " ", decimal value] = Exposition.text (plainLines name kind value) := by
  have htype : ascii "# TYPE milter_" = Exposition.typeMark ++ ascii "milter_" := by
    decide
  have hnext : ascii "\nmilter_" = Exposition.newline :: ascii "milter_" := by decide
  have hspace : ascii " " = [Exposition.space] := by decide
  have hnewline : ascii "\n" = [Exposition.newline] := by decide
  simp [writeln, plainLines, text_cons, lineText, Line.text, Exposition.labelsText, htype, hnext,
    hspace, hnewline]

/-- **The text is one of the format.** -/
theorem render_text (stats : Stats) :
    stats.render seconds = Exposition.text (stats.lines seconds) := by
  have hlistener (transport : String) (id : UInt8) :
      writeln [ascii "milter_listener_up\x7btransport=\"", ascii transport, ascii "\"\x7d ",
        decimal (decide (stats.listener = id)).toNat] =
        lineText (stats.listenerLine transport id) :=
    writeln_one (by decide)
  have hdrain (outcome : String) (value : ℕ) :
      writeln [ascii "milter_drain_total\x7boutcome=\"", ascii outcome, ascii "\"\x7d ",
        decimal value] = lineText (drainLine outcome value) :=
    writeln_one (by decide)
  have hfailure (i : Fin failureKinds.length) :
      writeln [ascii "milter_connection_failures_total\x7bkind=\"", ascii (failureKinds.get i),
        ascii "\"\x7d ", decimal (stats.connectionFailures i)] = lineText (stats.failureLine i) :=
    writeln_one (by decide)
  have hlistenerType : ascii "# TYPE milter_listener_up gauge\n" =
      lineText (.type (ascii "milter_listener_up") (ascii "gauge")) := by decide
  have hdrainType : ascii "# TYPE milter_drain_total counter\n" =
      lineText (.type (ascii "milter_drain_total") (ascii "counter")) := by decide
  have hfailureType : ascii "# TYPE milter_connection_failures_total counter\n" =
      lineText (.type (ascii "milter_connection_failures_total") (ascii "counter")) := by
    decide
  have hactiveType : ascii "# TYPE milter_operations_active gauge\n" =
      lineText (.type (ascii "milter_operations_active") (ascii "gauge")) := by decide
  have htotalType : ascii "# TYPE milter_operations_total counter\n" =
      lineText (.type (ascii "milter_operations_total") (ascii "counter")) := by decide
  have hdurationType : ascii "# TYPE milter_operation_duration_seconds histogram\n" =
      lineText (.type (ascii "milter_operation_duration_seconds") (ascii "histogram")) := by
    decide
  have hfailures : Exposition.text (List.ofFn stats.failureLine) =
      (List.ofFn fun i => lineText (stats.failureLine i)).flatten := by
    rw [text_eq, List.map_ofFn]
    rfl
  simp only [render, written, lines, serverLines, List.flatten_append, List.flatten_cons,
    List.map_cons, List.map_nil, List.flatten_nil, Exposition.text_append, text_cons,
    text_flatMap, hlistener, hdrain, hfailure, hfailures, hlistenerType, hdrainType, hfailureType,
    hactiveType, htotalType, hdurationType, writeln_plain, OperationStats.render_text,
    Exposition.text_nil, List.append_assoc, List.append_nil]

end Stats

/-! ### The parts of the lines -/

/-- A number has no line break. -/
theorem free_decimal (n : ℕ) : Exposition.Free [Exposition.newline] (decimal n) := by
  intro c hc
  have hdigit := List.all_eq_true.mp (decimal_all_digits n) c hc
  simp only [List.contains_eq_mem, List.mem_singleton, decide_eq_false_iff_not]
  rintro rfl
  cases hdigit

/-- A label value without a mark. -/
abbrev Unmarked (s : Str) : Prop := Exposition.Free [Exposition.quote, Exposition.newline] s

/-- The labels of failures need no escapes. -/
theorem unmarked_kind (i : Fin failureKinds.length) : Unmarked (ascii (failureKinds.get i)) := by
  revert i
  decide

/-- The labels of buckets need no escapes. -/
theorem unmarked_bucket (i : Fin bucketBounds.length) : Unmarked (ascii (bucketText i)) := by
  revert i
  decide

/-- A series whose own parts hold no mark is plain, whatever its number. -/
theorem plain_sample {name key label : Str} (v : ℕ)
    (hname : Exposition.Free [Exposition.hash, Exposition.opening, Exposition.space,
      Exposition.newline] name)
    (hkey : Exposition.Free [Exposition.equals, Exposition.newline] key) (hlabel : Unmarked label) :
    (Line.sample name [(key, label)] (decimal v)).Plain :=
  ⟨hname, List.forall_mem_singleton.mpr ⟨hkey, hlabel⟩, free_decimal v⟩

/-- The lines of an operation fit the format. -/
theorem OperationStats.lines_plain
    (hseconds : ∀ n, Exposition.Free [Exposition.newline] (seconds n)) {operation : Str}
    (hoperation : Unmarked operation) (op : OperationStats) :
    ∀ l ∈ op.lines seconds operation, l.Plain := by
  have hkey : Exposition.Free [Exposition.equals, Exposition.newline] (ascii "operation") := by
    decide
  have houtcome : Exposition.Free [Exposition.equals, Exposition.newline] (ascii "outcome") := by
    decide
  have hle : Exposition.Free [Exposition.equals, Exposition.newline] (ascii "le") := by
    decide
  have htotal {outcome : Str} (h : Unmarked outcome) (v : ℕ) :
      (operationLine "milter_operations_total" operation [(ascii "outcome", outcome)]
        (decimal v)).Plain :=
    ⟨by decide, List.forall_mem_cons.mpr ⟨⟨hkey, hoperation⟩,
      List.forall_mem_singleton.mpr ⟨houtcome, h⟩⟩, free_decimal v⟩
  have hbucket {bound : Str} (h : Unmarked bound) (v : ℕ) :
      (operationLine "milter_operation_duration_seconds_bucket" operation [(ascii "le", bound)]
        (decimal v)).Plain :=
    ⟨by decide, List.forall_mem_cons.mpr ⟨⟨hkey, hoperation⟩,
      List.forall_mem_singleton.mpr ⟨hle, h⟩⟩, free_decimal v⟩
  have hsum : (operationLine "milter_operation_duration_seconds_sum" operation []
      (seconds op.values.sum)).Plain :=
    ⟨by decide, List.forall_mem_singleton.mpr ⟨hkey, hoperation⟩, hseconds _⟩
  simp only [lines, List.forall_mem_append, List.forall_mem_cons, List.forall_mem_ofFn_iff]
  exact ⟨⟨⟨plain_sample _ (by decide) hkey hoperation, htotal (by decide) _,
      fun i => htotal (unmarked_kind i) _⟩, fun i => hbucket (unmarked_bucket i) _⟩,
    hbucket (by decide) _, plain_sample _ (by decide) hkey hoperation, hsum,
    fun _ h => nomatch h⟩

namespace Stats

/-- The names of the operations need no escapes. -/
theorem unmarked_operations (stats : Stats) : ∀ o ∈ stats.operations, Unmarked (ascii o.1) := by
  have hnames : ∀ name ∈ ({} : Stats).operations.map Prod.fst, Unmarked (ascii name) := by
    decide
  have hsame : stats.operations.map Prod.fst = ({} : Stats).operations.map Prod.fst := rfl
  intro o ho
  exact hnames o.1 (hsame ▸ List.mem_map.mpr ⟨o, ho, rfl⟩)

/-- The lines without labels fit the format. -/
theorem plainLines_plain (stats : Stats) :
    ∀ l ∈ stats.plain.flatMap fun (name, kind, value) => plainLines name kind value, l.Plain := by
  have hnames : ∀ m ∈ ({} : Stats).plain.map fun m => (m.1, m.2.1),
      (Line.type (ascii "milter_" ++ ascii m.1) (ascii m.2)).Plain ∧
        (Line.sample (ascii "milter_" ++ ascii m.1) [] []).Plain := by
    decide
  have hsame : (stats.plain.map fun m => (m.1, m.2.1)) =
      ({} : Stats).plain.map fun m => (m.1, m.2.1) := rfl
  intro l hl
  obtain ⟨m, hm, hl⟩ := List.mem_flatMap.mp hl
  obtain ⟨htype, hsample⟩ := hnames (m.1, m.2.1) (hsame ▸ List.mem_map.mpr ⟨m, hm, rfl⟩)
  rcases List.mem_cons.mp hl with rfl | hl
  · exact htype
  · obtain rfl := List.mem_singleton.mp hl
    exact ⟨hsample.1, hsample.2.1, free_decimal _⟩

/-- No part of a line holds a mark that ends the part. -/
theorem lines_plain (hseconds : ∀ n, Exposition.Free [Exposition.newline] (seconds n))
    (stats : Stats) : ∀ l ∈ stats.lines seconds, l.Plain := by
  have hlistener (transport : String) (id : UInt8) (h : Unmarked (ascii transport)) :
      (stats.listenerLine transport id).Plain :=
    plain_sample _ (by decide) (by decide) h
  have hdrain (outcome : String) (v : ℕ) (h : Unmarked (ascii outcome)) :
      (drainLine outcome v).Plain :=
    plain_sample _ (by decide) (by decide) h
  have hfailure (i : Fin failureKinds.length) : (stats.failureLine i).Plain :=
    plain_sample _ (by decide) (by decide) (unmarked_kind i)
  simp only [lines, serverLines, List.forall_mem_append, List.forall_mem_cons,
    List.forall_mem_ofFn_iff]
  refine ⟨⟨⟨⟨stats.plainLines_plain, ?_⟩, hfailure⟩, ?_⟩, ?_⟩
  · exact ⟨by decide, hlistener _ _ (by decide), hlistener _ _ (by decide),
      by decide, hdrain _ _ (by decide), hdrain _ _ (by decide),
      by decide, fun _ h => nomatch h⟩
  · exact ⟨by decide, by decide, by decide, fun _ h => nomatch h⟩
  · intro l hl
    obtain ⟨o, ho, hl⟩ := List.mem_flatMap.mp hl
    exact o.2.lines_plain seconds hseconds (stats.unmarked_operations o ho) l hl

end Stats

/-! ### The series of the lines -/

/-- The series of an operation, without the label that names it. -/
def operationSeries : List (Str × List (Str × Str)) :=
  (Exposition.keys (OperationStats.lines (fun _ => []) [] {})).map fun key => (key.1, key.2.tail)

/-- The series of an operation differ. -/
theorem operationSeries_nodup : operationSeries.Nodup := by decide

/-- The series of the lines of an operation. -/
theorem OperationStats.keys_lines (operation : Str) (op : OperationStats) :
    Exposition.keys (op.lines seconds operation) =
      operationSeries.map fun s => (s.1, (ascii "operation", operation) :: s.2) := by
  exact Eq.refl _

/-- The lines of all operations are alike but for labels and values. -/
theorem OperationStats.bare_lines (operation : Str) (op : OperationStats) :
    (op.lines seconds operation).map Line.bare =
      (lines (fun _ => []) [] {}).map Line.bare := by
  exact Eq.refl _

/-- No series of an operation is given twice. -/
theorem OperationStats.keys_nodup (operation : Str) (op : OperationStats) :
    (Exposition.keys (op.lines seconds operation)).Nodup := by
  rw [keys_lines]
  refine operationSeries_nodup.map fun s t h => ?_
  obtain ⟨hname, hlabels⟩ := Prod.mk.inj h
  exact Prod.ext hname (List.cons.inj hlabels).2

/-- All series of an operation name it. -/
theorem OperationStats.head_of_mem_keys {operation : Str} {op : OperationStats}
    {key : Str × List (Str × Str)} (h : key ∈ Exposition.keys (op.lines seconds operation)) :
    key.2.head? = some (ascii "operation", operation) := by
  rw [keys_lines] at h
  obtain ⟨s, -, rfl⟩ := List.mem_map.mp h
  rfl

namespace Stats

/-- The series of a server do not depend on its counters. -/
theorem keys_serverLines (stats : Stats) :
    Exposition.keys stats.serverLines = Exposition.keys ({} : Stats).serverLines := by
  exact Eq.refl _

/-- **No series is given twice.** -/
theorem keys_nodup (stats : Stats) : (Exposition.keys (stats.lines seconds)).Nodup := by
  have hserver : (Exposition.keys ({} : Stats).serverLines).Nodup := by decide
  have hother : ∀ key ∈ Exposition.keys ({} : Stats).serverLines,
      key.2.head?.map Prod.fst ≠ some (ascii "operation") := by decide
  have hnames : (stats.operations.map fun o => ascii o.1).Nodup := by
    show (({} : Stats).operations.map fun o => ascii o.1).Nodup
    decide
  rw [lines, Exposition.keys_append, Exposition.keys_flatMap, keys_serverLines, List.nodup_append]
  refine ⟨hserver, List.nodup_flatMap.mpr ⟨fun o _ => o.2.keys_nodup seconds _, ?_⟩, ?_⟩
  · refine (List.pairwise_map.mp hnames).imp fun {o o'} hne key hkey hkey' => hne ?_
    have hhead := OperationStats.head_of_mem_keys seconds hkey
    rw [OperationStats.head_of_mem_keys seconds hkey'] at hhead
    exact (Prod.mk.inj (Option.some.inj hhead)).2.symm
  · rintro key hkey _ hkey' rfl
    obtain ⟨o, -, hkey'⟩ := List.mem_flatMap.mp hkey'
    refine hother key hkey ?_
    rw [OperationStats.head_of_mem_keys seconds hkey']
    rfl

/-- **Every series comes after the declaration of its metric.** -/
theorem lines_declared (stats : Stats) : Exposition.Declared [] (stats.lines seconds) := by
  have hbare : (stats.lines seconds).map Line.bare =
      (lines (fun _ => []) {}).map Line.bare := by
    simp only [lines, List.map_append, List.map_flatMap, OperationStats.bare_lines]
    exact Eq.refl _
  rw [← Exposition.declared_bare, hbare]
  decide +kernel

end Stats

/-! ### Reading the text -/

/-- What a reader of the text finds out about an operation, besides the sum of its durations. -/
structure OperationStats.Shown (look : Str → List (Str × Str) → Option Str) (operation : Str)
    (op : OperationStats) : Prop where
  active : look (ascii "milter_operations_active") [(ascii "operation", operation)] =
    some (decimal op.active)
  success : look (ascii "milter_operations_total")
    [(ascii "operation", operation), (ascii "outcome", ascii "success")] =
    some (decimal op.values.success)
  failures : ∀ i, look (ascii "milter_operations_total")
    [(ascii "operation", operation), (ascii "outcome", ascii (failureKinds.get i))] =
    some (decimal (op.values.failures i))
  /-- The label of a bucket is its bound. -/
  buckets : ∀ i, ∃ bound, nanoseconds bound = bucketBounds.get i ∧
    look (ascii "milter_operation_duration_seconds_bucket")
      [(ascii "operation", operation), (ascii "le", bound)] =
      some (decimal (op.values.buckets i))
  infinite : look (ascii "milter_operation_duration_seconds_bucket")
    [(ascii "operation", operation), (ascii "le", ascii "+Inf")] = some (decimal op.values.count)
  count : look (ascii "milter_operation_duration_seconds_count")
    [(ascii "operation", operation)] = some (decimal op.values.count)

/-- What a reader of the text finds out. -/
structure Stats.Shown (look : Str → List (Str × Str) → Option Str) (stats : Stats) : Prop where
  plain : ∀ m ∈ stats.plain, look (ascii "milter_" ++ ascii m.1) [] = some (decimal m.2.2)
  tcp : look (ascii "milter_listener_up") [(ascii "transport", ascii "tcp")] =
    some (decimal (decide (stats.listener = 1)).toNat)
  unix : look (ascii "milter_listener_up") [(ascii "transport", ascii "unix")] =
    some (decimal (decide (stats.listener = 2)).toNat)
  graceful : look (ascii "milter_drain_total") [(ascii "outcome", ascii "graceful")] =
    some (decimal stats.drainGraceful)
  forced : look (ascii "milter_drain_total") [(ascii "outcome", ascii "forced")] =
    some (decimal stats.drainForced)
  failures : ∀ i, look (ascii "milter_connection_failures_total")
    [(ascii "kind", ascii (failureKinds.get i))] = some (decimal (stats.connectionFailures i))
  operations : ∀ o ∈ stats.operations, o.2.Shown look (ascii o.1)

/-- A reader that finds each line finds each counter of an operation. -/
theorem OperationStats.shown {look : Str → List (Str × Str) → Option Str} {operation : Str}
    {op : OperationStats}
    (h : ∀ name labels v, .sample name labels v ∈ op.lines seconds operation →
      look name labels = some v) :
    op.Shown look operation where
  active := h _ _ _ (by simp [lines, operationLine])
  success := h _ _ _ (by simp [lines, operationLine])
  failures i := h _ _ _ (List.mem_append_left _ (List.mem_append_left _
    (List.mem_cons_of_mem _ (List.mem_cons_of_mem _ (List.mem_ofFn.mpr ⟨i, rfl⟩)))))
  buckets i := ⟨bucketText i, nanoseconds_bucketText i, h _ _ _
    (List.mem_append_left _ (List.mem_append_right _ (List.mem_ofFn.mpr ⟨i, rfl⟩)))⟩
  infinite := h _ _ _ (by simp [lines, operationLine])
  count := h _ _ _ (by simp [lines, operationLine])

namespace Stats

/-- A reader that finds each line finds each counter. -/
theorem shown {look : Str → List (Str × Str) → Option Str} {stats : Stats}
    (h : ∀ name labels v, .sample name labels v ∈ stats.lines seconds →
      look name labels = some v) :
    stats.Shown look where
  plain m hm := h _ _ _ (List.mem_append_left _ (List.mem_append_left _ (List.mem_append_left _
    (List.mem_append_left _ (List.mem_flatMap.mpr ⟨m, hm, by simp [plainLines]⟩)))))
  tcp := h _ _ _ (by simp [lines, serverLines, listenerLine])
  unix := h _ _ _ (by simp [lines, serverLines, listenerLine])
  graceful := h _ _ _ (by simp [lines, serverLines, drainLine])
  forced := h _ _ _ (by simp [lines, serverLines, drainLine])
  failures i := h _ _ _ (List.mem_append_left _ (List.mem_append_left _
    (List.mem_append_right _ (List.mem_ofFn.mpr ⟨i, rfl⟩))))
  operations o ho := OperationStats.shown seconds fun name labels v hv =>
    h name labels v (List.mem_append_right _ (List.mem_flatMap.mpr ⟨o, ho, hv⟩))

/-- **No counter is lost on the way to `/metrics`.**  However the sums of durations are shown: the
    text can be read, gives no series twice and none before its metric is declared, and shows
    every counter, gauge, label and bucket under its own series. -/
theorem scraped (hseconds : ∀ n, Exposition.Free [Exposition.newline] (seconds n))
    (stats : Stats) :
    ∃ ls, Exposition.read (stats.render seconds) = some ls ∧ (Exposition.keys ls).Nodup ∧
      Exposition.Declared [] ls ∧ stats.Shown (Exposition.value ls) := by
  refine ⟨stats.lines seconds, ?_, stats.keys_nodup seconds, stats.lines_declared seconds, ?_⟩
  · rw [render_text]
    exact Exposition.read_text (stats.lines_plain seconds hseconds)
  · exact stats.shown seconds fun _ _ _ hmem =>
      Exposition.value_of_mem (stats.keys_nodup seconds) hmem

/-- Seconds as a decimal number, as an `f64` of few digits is shown. -/
def sampleSeconds (n : ℕ) : Str :=
  if n % 10 ^ 9 = 0 then decimal (n / 10 ^ 9)
  else decimal (n / 10 ^ 9) ++
    byte '.' :: (decimal (10 ^ 9 + n % 10 ^ 9)).tail.rdropWhile (· = byte '0')

/-- The seconds of the sample have no line break. -/
theorem free_sampleSeconds (n : ℕ) : Exposition.Free [Exposition.newline] (sampleSeconds n) := by
  unfold sampleSeconds
  split
  next => exact free_decimal _
  next =>
    refine Exposition.free_append.mpr ⟨free_decimal _, Exposition.free_cons.mpr ⟨by decide, ?_⟩⟩
    intro c hc
    exact free_decimal _ c (List.mem_of_mem_tail ((List.rdropWhile_prefix _ _).subset hc))

/-- One callback was decided, after three milliseconds. -/
def sampleStats : Stats :=
  { ready := true, connections := 1, listener := 1,
    policy := { values := { ({} : Measurements).measure 3000000 with success := 1 } } }

/-- The reader finds the one callback of the sample. -/
theorem scraped_at_sample :
    ∃ ls, Exposition.read (sampleStats.render sampleSeconds) = some ls ∧
      Exposition.value ls (ascii "milter_operation_duration_seconds_count")
        [(ascii "operation", ascii "policy")] = some (ascii "1") := by
  obtain ⟨ls, hread, -, -, hshown⟩ := scraped sampleSeconds free_sampleSeconds sampleStats
  have hpolicy := hshown.operations ("policy", sampleStats.policy) List.mem_cons_self
  exact ⟨ls, hread, hpolicy.count.trans (by decide)⟩

end Stats

end MtaHooks
