import I8080.Proofs.Account

namespace I8080

/-- Whether a label table has the label that a diagnostic misses. -/
def Diagnostic.settled (labels : LabelTable) (d : Diagnostic) : Bool :=
  match d.error with
  | .unresolvedLabel name => (labels.get? name).isSome
  | _ => false

theorem Diagnostic.settled_of_first {d : Diagnostic} (first : d.error.isUnresolved = false) (labels : LabelTable) :
    d.settled labels = false := by
  unfold Diagnostic.settled
  cases h : d.error <;> first | rfl | (rw [h] at first; cases first)

theorem Emission.not_settled_of_mem {e : Emission} {labels : LabelTable} {d : Diagnostic}
    (h : d ∈ e.unresolved labels) : d.settled labels = false := by
  obtain ⟨t, ht, rfl⟩ := List.mem_map.mp h
  have missing : labels.get? t.name = none := by simpa using (List.mem_filter.mp ht).2
  simp [Diagnostic.settled, missing]

/-- How what a line comes to changes when the label table grows from `labels` to `more`: only an instruction
that waits for a label changes, and only if the label is there now. -/
inductive Outcome.Completes (labels more : LabelTable) : Outcome → Outcome → Prop
  | silent : Completes labels more .silent .silent
  | fails (d : Diagnostic) (first : d.error.isUnresolved = false) : Completes labels more (.fails d) (.fails d)
  | kept (e : Emission) (same : e.unresolved more = e.unresolved labels) :
      Completes labels more (.emits e) (.emits e)
  | filled (e later : Emission) (t : Token) (opcode : UInt8) (address : UInt16) (entry : later.entry = e.entry)
      (known : more.get? t.name = some address)
      (waiting : e.instr.encode = withWord opcode 0) (complete : later.instr.encode = withWord opcode address)
      (reported : e.unresolved labels = [⟨⟨t.span, .unresolvedLabel t.name⟩, e.line⟩])
      (silenced : later.unresolved more = []) : Completes labels more (.emits e) (.emits later)

section Grown

variable {labels more : LabelTable} (grown : more.Extends labels)

include grown

theorem Statement.outcome_completes {s : Statement} (hm : s.mnemonic ∈ Mnemonic.table) (line offset : Nat) :
    (s.outcome labels line offset).Completes labels more (s.outcome more line offset) := by
  cases s.meaning hm with
  | fails c instr =>
    simp only [Statement.outcome, instr]
    exact .fails _ (Statement.instr_error (instr labels))
  | fixed i instr closed =>
    simp only [Statement.outcome, instr]
    split
    next => exact .kept _ (by simp [Emission.unresolved, closed])
    next => exact .fails _ rfl
  | refers t build opcode encode instr single =>
    have size : ∀ w, (build w).size = 3 := fun w => Instr.size_of_encode (encode w)
    simp only [Statement.outcome, instr, size]
    split
    next =>
      cases known : more.get? t.name with
      | none =>
        have unknown : labels.get? t.name = none := by
          cases h : labels.get? t.name with
          | none => rfl
          | some address => rw [grown _ _ h] at known; cases known
        rw [LabelTable.address_of_get?_none known, LabelTable.address_of_get?_none unknown]
        exact .kept _ (by simp [Emission.unresolved, single, known, unknown])
      | some address =>
        cases unknown : labels.get? t.name with
        | none =>
          rw [LabelTable.address_of_get? known, LabelTable.address_of_get?_none unknown]
          refine .filled _ _ t opcode address ?_ known (encode 0) (encode address) ?_ ?_
          · simp [Emission.entry, size]
          · simp [Emission.unresolved, single, unknown]
          · simp [Emission.unresolved, single, known]
        | some earlier =>
          rw [grown.address (by simp [unknown])]
          exact .kept _ (by simp [Emission.unresolved, single, known, unknown])
    next => exact .fails _ rfl

theorem SourceLine.bodyOutcome_completes (line : SourceLine) (offset : Nat) :
    (line.bodyOutcome labels offset).Completes labels more (line.bodyOutcome more offset) := by
  unfold SourceLine.bodyOutcome
  cases line.body with
  | nil => exact .silent
  | cons head operands =>
    cases hs : Statement.ofTokens head operands with
    | error c =>
      simp only [hs]
      exact .fails _ (Statement.ofTokens_error hs)
    | ok s =>
      simp only [hs]
      exact Statement.outcome_completes grown (Statement.mnemonic_mem_table hs) line.number offset

theorem SourceLine.outcome_completes (line : SourceLine) (taken : List String) (offset : Nat) :
    (line.outcome labels taken offset).Completes labels more (line.outcome more taken offset) := by
  unfold SourceLine.outcome
  cases line.label? with
  | none => exact line.bodyOutcome_completes grown offset
  | some name =>
    dsimp only
    split
    next => exact .fails _ rfl
    next => exact line.bodyOutcome_completes grown offset

end Grown

namespace Outcome.Completes

variable {labels more : LabelTable} {o later : Outcome}

theorem entries_eq (h : o.Completes labels more later) : later.entries = o.entries := by
  cases h with
  | silent | fails | kept => rfl
  | filled e later t opcode address entry => exact congrArg (fun entry => [entry]) entry

theorem length_bytes (h : o.Completes labels more later) : later.bytes.length = o.bytes.length := by
  cases h with
  | silent | fails | kept => rfl
  | filled e later t opcode address entry known waiting complete =>
    simp only [Outcome.bytes, waiting, complete]
    rfl

/-- Of what is reported about a line, only the complaint about a label that is there now goes away. -/
theorem diagnostics_eq (h : o.Completes labels more later) :
    later.diagnostics more = (o.diagnostics labels).filter fun d => !d.settled more := by
  cases h with
  | silent => rfl
  | fails d first =>
    simp [Outcome.diagnostics, Outcome.diagnostic?, Outcome.unresolved, Diagnostic.settled_of_first first]
  | kept e same =>
    have missing : (e.unresolved more).filter (fun d => !d.settled more) = e.unresolved more :=
      List.filter_eq_self.mpr fun d hd => by rw [Emission.not_settled_of_mem hd, Bool.not_false]
    rw [Outcome.diagnostics, Outcome.diagnostics, Outcome.unresolved, Outcome.unresolved, ← same]
    exact missing.symm
  | filled e later t opcode address entry known waiting complete reported silenced =>
    simp [Outcome.diagnostics, Outcome.diagnostic?, Outcome.unresolved, reported, silenced, Diagnostic.settled, known]

end Outcome.Completes

theorem outcomes_completes {labels more : LabelTable} (grown : more.Extends labels) (taken : List String)
    (offset : Nat) (lines : List SourceLine) :
    List.Forall₂ (Outcome.Completes labels more) (outcomes labels taken offset lines)
      (outcomes more taken offset lines) := by
  induction lines generalizing taken offset with
  | nil => exact .nil
  | cons line lines ih =>
    have first := line.outcome_completes grown taken offset
    refine .cons first ?_
    rw [first.length_bytes]
    exact ih _ _

theorem flatMap_entries_completes {labels more : LabelTable} {os later : List Outcome}
    (h : List.Forall₂ (Outcome.Completes labels more) os later) :
    later.flatMap Outcome.entries = os.flatMap Outcome.entries := by
  induction h with
  | nil => rfl
  | cons first _ ih => rw [List.flatMap_cons, List.flatMap_cons, first.entries_eq, ih]

theorem flatMap_diagnostics_completes {labels more : LabelTable} {os later : List Outcome}
    (h : List.Forall₂ (Outcome.Completes labels more) os later) :
    later.flatMap (Outcome.diagnostics more) =
      (os.flatMap (Outcome.diagnostics labels)).filter fun d => !d.settled more := by
  induction h with
  | nil => rfl
  | cons first _ ih => rw [List.flatMap_cons, List.flatMap_cons, List.filter_append, first.diagnostics_eq, ih]

end I8080
