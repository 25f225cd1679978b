import I8080.Proofs.Resolution
import Mathlib.Data.List.Perm.Basic

namespace I8080

/-- All that is reported about a line, where `labels` is the table in the end. -/
def Outcome.diagnostics (labels : LabelTable) (o : Outcome) : List Diagnostic :=
  o.diagnostic?.toList ++ o.unresolved labels

theorem Statement.length_references {s : Statement} (hm : s.mnemonic ∈ Mnemonic.table) {labels : LabelTable}
    {i : Instr} (hi : s.instr labels = .ok i) : s.references.length ≤ 1 := by
  cases s.meaning hm with
  | fails c fails => cases hi.symm.trans (fails labels)
  | fixed i instr closed => rw [closed]; exact Nat.zero_le _
  | refers t build opcode encode instr single => rw [single]; exact Nat.le_refl _

theorem SourceLine.length_diagnostics (line : SourceLine) (labels : LabelTable) (taken : List String) (offset : Nat) :
    ((line.outcome labels taken offset).diagnostics labels).length ≤ 1 := by
  cases h : line.outcome labels taken offset with
  | silent => exact Nat.zero_le _
  | fails d => exact Nat.le_refl _
  | emits e =>
    obtain ⟨head, operands, s, -, statement, outcome⟩ := SourceLine.outcome_emits h
    obtain ⟨instr, he, -⟩ := Statement.outcome_emits outcome
    have single := Statement.length_references (Statement.mnemonic_mem_table statement) instr
    have unresolved : (e.unresolved labels).length ≤ s.references.length := by
      rw [he, Emission.unresolved, List.length_map]
      exact List.length_filter_le _ _
    exact Nat.le_trans unresolved single

theorem Outcome.mem_diagnostics_iff {labels : LabelTable} {o : Outcome} {d : Diagnostic} :
    d ∈ o.diagnostics labels ↔ o = .fails d ∨ ∃ e, o = .emits e ∧ d ∈ e.unresolved labels := by
  cases o with
  | silent => simp [Outcome.diagnostics, Outcome.diagnostic?, Outcome.unresolved]
  | fails c => simp [Outcome.diagnostics, Outcome.diagnostic?, Outcome.unresolved, eq_comm]
  | emits e => simp [Outcome.diagnostics, Outcome.diagnostic?, Outcome.unresolved]

theorem SourceLine.line_of_diagnostics {line : SourceLine} {labels : LabelTable} {taken : List String}
    {offset : Nat} {d : Diagnostic} (h : d ∈ (line.outcome labels taken offset).diagnostics labels) :
    d.line = line.number := by
  rcases Outcome.mem_diagnostics_iff.mp h with fails | ⟨e, emits, unresolved⟩
  · exact (SourceLine.fails_of_outcome fails).1
  · obtain ⟨t, -, rfl⟩ := List.mem_map.mp unresolved
    exact SourceLine.outcome_line emits

theorem line_of_outcomes_diagnostics {labels : LabelTable} {taken : List String} {offset : Nat}
    {lines : List SourceLine} {d : Diagnostic}
    (h : d ∈ (outcomes labels taken offset lines).flatMap (Outcome.diagnostics labels)) :
    ∃ line ∈ lines, d.line = line.number := by
  obtain ⟨o, mem, hd⟩ := List.mem_flatMap.mp h
  obtain ⟨line, listed, taken, offset, rfl⟩ := exists_of_mem_outcomes mem
  exact ⟨line, listed, SourceLine.line_of_diagnostics hd⟩

theorem outcomes_diagnostics_ordered {labels : LabelTable} {taken : List String} {offset : Nat}
    {lines : List SourceLine} (ordered : lines.Pairwise fun line next => line.number < next.number) :
    ((outcomes labels taken offset lines).flatMap (Outcome.diagnostics labels)).Pairwise
      fun d e => d.line < e.line := by
  induction lines generalizing taken offset with
  | nil => exact .nil
  | cons line lines ih =>
    obtain ⟨above, rest⟩ := List.pairwise_cons.mp ordered
    rw [outcomes, List.flatMap_cons, List.pairwise_append]
    refine ⟨?_, ih rest, ?_⟩
    · have length := line.length_diagnostics labels taken offset
      cases hd : (line.outcome labels taken offset).diagnostics labels with
      | nil => exact .nil
      | cons d ds =>
        rw [hd, List.length_cons] at length
        cases List.length_eq_zero_iff.mp (Nat.le_zero.mp (Nat.le_of_succ_le_succ length))
        exact List.pairwise_singleton _ d
    · intro d hd e he
      obtain ⟨later, mem, hline⟩ := line_of_outcomes_diagnostics he
      rw [SourceLine.line_of_diagnostics hd, hline]
      exact above later mem

theorem diagnostics_perm (source : String) :
    (assemble source).diagnostics.Perm
      ((outcomes (assemble source).labels [] 0 (sourceLines source.toList)).flatMap
        (Outcome.diagnostics (assemble source).labels)) := by
  rw [assemble_diagnostics, emissions, ← flatMap_unresolved_eq, List.filterMap_eq_flatMap_toList]
  exact (List.mergeSort_perm _ _).trans (List.flatMap_append_perm _ _ _)

/-- A line has one diagnostic at most, and diagnostics stand in the order of their lines. -/
theorem diagnostics_ordered (source : String) :
    (assemble source).diagnostics.Pairwise fun d e => d.line < e.line := by
  have apart : (assemble source).diagnostics.Pairwise fun d e => d.line ≠ e.line := by
    refine ((diagnostics_perm source).pairwise_iff Ne.symm).mpr ?_
    exact (outcomes_diagnostics_ordered (sourceLines_ordered source.toList)).imp Nat.ne_of_lt
  have sorted : (assemble source).diagnostics.Pairwise fun d e => d.line ≤ e.line := by
    rw [assemble_diagnostics]
    exact (List.pairwise_mergeSort line_le_trans line_le_total _).imp of_decide_eq_true
  exact sorted.imp₂ (fun d e le ne => Nat.lt_of_le_of_ne le ne) apart

end I8080
