import MtaHooks.Hooks.Json
import MtaHooks.Session.Basic
import Mathlib.Data.List.Dedup
import Mathlib.Data.List.Perm.Subperm

namespace MtaHooks

/-!
# The stages that a scanner confirms

`main` takes the adjacent repeats out of the configured stages, and `register` compares the
names of what is left with the array of the scanner: the lengths, and that each name occurs.

* `Confirmation.exact_iff` — what passes has exactly the configured stages iff none is left
  twice;
* `Confirmation.complete_iff` — a scanner that lists each configured stage once passes iff none
  is left twice.
-/

namespace Hooks

/-- The elements of a list that differ from the one before them. -/
def dedupAfter {α : Type} [DecidableEq α] (last : α) : List α → List α
  | [] => []
  | a :: l => if a = last then dedupAfter last l else a :: dedupAfter a l

/-- `Vec::dedup`: of equal neighbours the first is kept. -/
def dedup {α : Type} [DecidableEq α] : List α → List α
  | [] => []
  | a :: l => a :: dedupAfter a l

/-- The names of the configured stages, as `main` hands them to the client. -/
def stageNames (configured : List Stage) : List Str := (dedup configured).map Stage.hookName

/-- The stage check of `register`; a text is the only value equal to a stage name. -/
def confirmStages (wanted : List Str) (stages : List Json) : Result Unit :=
  rejectIf (stages.length ≠ wanted.length ∨
      wanted.any fun s => !stages.any fun v => v.asStr = some s)
    (.invalid "scanner did not confirm the configured stages")

/-- Stages are told apart by their names. -/
theorem hookName_injective : Function.Injective Stage.hookName := by
  intro s t h
  cases s <;> cases t <;> first | rfl | exact absurd h (by decide)

/-- What is in a list without its adjacent repeats, behind a last value. -/
theorem mem_dedupAfter {α : Type} [DecidableEq α] {last : α} {l : List α} {a : α} :
    a ∈ dedupAfter last l ∨ a = last ↔ a ∈ l ∨ a = last := by
  induction l generalizing last with
  | nil => rfl
  | cons b l ih =>
    rw [dedupAfter]
    split
    · rename_i hb
      rw [ih, List.mem_cons, hb]
      grind
    · have hrest : a ∈ dedupAfter b l ∨ a = b ↔ a ∈ l ∨ a = b := ih
      rw [List.mem_cons, List.mem_cons]
      grind

/-- A list keeps its members without its adjacent repeats. -/
theorem mem_dedup {α : Type} [DecidableEq α] {l : List α} {a : α} : a ∈ dedup l ↔ a ∈ l := by
  cases l with
  | nil => rfl
  | cons b l =>
    have hrest : a ∈ dedupAfter b l ∨ a = b ↔ a ∈ l ∨ a = b := mem_dedupAfter
    rw [dedup, List.mem_cons, List.mem_cons, or_comm, hrest, or_comm]

namespace Confirmation

variable {wanted : List Str} {stages : List Json}

/-- What passes has the stages of the client and no others. -/
def Exact (wanted : List Str) : Prop :=
  ∀ stages, confirmStages wanted stages = .ok () → ∀ v, v ∈ stages ↔ v ∈ wanted.map Json.string

/-- Every list of the stages of the client, each of them once, passes. -/
def Complete (wanted : List Str) : Prop :=
  ∀ stages, stages.Perm (wanted.dedup.map Json.string) → confirmStages wanted stages = .ok ()

/-- A text of JSON is a string. -/
theorem asStr_eq_some {v : Json} {s : Str} : v.asStr = some s ↔ v = .string s := by
  cases v <;> simp [Json.asStr]

/-- What the check of a confirmation asks for: a length, and one inclusion. -/
theorem confirmStages_ok :
    confirmStages wanted stages = .ok () ↔
      stages.length = wanted.length ∧ wanted.map Json.string ⊆ stages := by
  unfold confirmStages
  rw [rejectIf_eq_ok]
  simp [List.subset_def, asStr_eq_some]

/-- Strings of JSON are told apart by their texts. -/
theorem string_injective : Function.Injective Json.string := fun _ _ h => Json.string.inj h

/-- Without repeats equal lengths leave no room for another stage. -/
theorem exact_of_nodup (h : wanted.Nodup) : Exact wanted := by
  intro stages hpasses v
  obtain ⟨hlength, hsubset⟩ := confirmStages_ok.mp hpasses
  have hnodup : (wanted.map Json.string).Nodup := h.map string_injective
  have hperm := (hnodup.subperm hsubset).perm_of_length_le (by rw [List.length_map, hlength])
  exact hperm.mem_iff.symm

/-- A list with a repeat is longer than the set of its members. -/
theorem length_dedup_lt (h : ¬ wanted.Nodup) : wanted.dedup.length < wanted.length := by
  have hle := wanted.dedup_sublist.length_le
  apply lt_of_le_of_ne hle
  intro hlength
  exact h (List.dedup_eq_self.mp (wanted.dedup_sublist.eq_of_length hlength))

/-- With a repeat there is room for a stage of the scanner's own. -/
theorem nodup_of_exact (h : Exact wanted) : wanted.Nodup := by
  by_contra hrepeat
  have hless := length_dedup_lt hrepeat
  have hpasses : confirmStages wanted (wanted.dedup.map Json.string ++
      List.replicate (wanted.length - wanted.dedup.length) .null) = .ok () := by
    apply confirmStages_ok.mpr
    constructor
    · simp
      omega
    · intro v hv
      obtain ⟨s, hs, rfl⟩ := List.mem_map.mp hv
      apply List.mem_append_left
      exact List.mem_map_of_mem (List.mem_dedup.mpr hs)
  have hnull := (h _ hpasses .null).mp
    (List.mem_append_right _ (List.mem_replicate.mpr ⟨by omega, rfl⟩))
  obtain ⟨s, -, hs⟩ := List.mem_map.mp hnull
  cases hs

/-- A list is complete if no stage is in it twice. -/
theorem complete_iff : Complete wanted ↔ wanted.Nodup := by
  constructor
  · intro h
    by_contra hrepeat
    have hlength := (confirmStages_ok.mp (h _ (List.Perm.refl _))).1
    rw [List.length_map] at hlength
    exact absurd hlength (length_dedup_lt hrepeat).ne
  · intro h stages hperm
    rw [List.dedup_eq_self.mpr h] at hperm
    apply confirmStages_ok.mpr
    constructor
    · simpa using hperm.length_eq
    · exact hperm.symm.subset

end Confirmation

open Confirmation

/-- **Stage confirmation is exact** iff no stage is left twice when the adjacent repeats are
    taken out: only then what passes is exactly the configured stages, and only then a scanner
    that lists each of them once passes. -/
theorem confirmStages_exact_iff (configured : List Stage) :
    let wanted := stageNames configured
    let names := configured.map fun s => Json.string s.hookName
    ((∀ stages, confirmStages wanted stages = .ok () → ∀ v, v ∈ stages ↔ v ∈ names) ↔
        (dedup configured).Nodup) ∧
      ((∀ stages : List Json, stages.Nodup → (∀ v, v ∈ stages ↔ v ∈ names) →
          confirmStages wanted stages = .ok ()) ↔ (dedup configured).Nodup) := by
  intro wanted names
  have hnames : ∀ v, v ∈ wanted.map Json.string ↔ v ∈ names := by
    intro v
    simp [wanted, names, stageNames, mem_dedup]
  have hnodup : wanted.Nodup ↔ (dedup configured).Nodup :=
    List.nodup_map_iff hookName_injective
  rw [← hnodup]
  constructor
  · constructor
    · intro h
      apply nodup_of_exact
      intro stages hpasses v
      rw [h stages hpasses v, hnames]
    · intro h stages hpasses v
      rw [exact_of_nodup h stages hpasses v, hnames]
  · rw [← complete_iff]
    have hperm : ∀ stages : List Json, stages.Perm (wanted.dedup.map Json.string) ↔
        stages.Nodup ∧ ∀ v, v ∈ stages ↔ v ∈ names := by
      intro stages
      have honce : (wanted.dedup.map Json.string).Nodup := wanted.nodup_dedup.map string_injective
      have hmem : ∀ v, v ∈ wanted.dedup.map Json.string ↔ v ∈ names := by
        intro v
        rw [← hnames]
        simp
      constructor
      · intro h
        exact ⟨h.nodup_iff.mpr honce, fun v => h.mem_iff.trans (hmem v)⟩
      · intro h
        exact (List.perm_ext_iff_of_nodup h.1 honce).mpr fun v => (h.2 v).trans (hmem v).symm
    constructor
    · intro h stages hstages
      obtain ⟨honce, hsame⟩ := (hperm stages).mp hstages
      exact h stages honce hsame
    · intro h stages honce hsame
      exact h stages ((hperm stages).mpr ⟨honce, hsame⟩)

/-- The stages `data,rcpt,data`: a scanner of `data`, `rcpt` and `connect` passes, and one of
    `data` and `rcpt` does not. -/
theorem repeatedStage_misjudged :
    let wanted := stageNames [.endMessage, .recipient, .endMessage]
    confirmStages wanted [.string "data", .string "rcpt", .string "connect"] = .ok () ∧
      confirmStages wanted [.string "data", .string "rcpt"] =
        .error (.invalid "scanner did not confirm the configured stages") := by
  decide +kernel

end Hooks

end MtaHooks
