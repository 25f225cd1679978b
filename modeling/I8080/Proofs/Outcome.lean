import I8080.Assembly
import I8080.Proofs.Statement

namespace I8080

/-- An instruction that a source line puts into the image, with the addresses of its labels filled in. -/
structure Emission where
  line : Nat
  offset : Nat
  statement : Statement
  instr : Instr

def Emission.entry (e : Emission) : Entry :=
  ⟨e.line, e.statement.span, e.offset, e.instr.size⟩

/-- Complaints about the labels of an emitted statement that have no address. -/
def Emission.unresolved (e : Emission) (labels : LabelTable) : List Diagnostic :=
  (e.statement.references.filter fun t => (labels.get? t.name).isNone).map fun t =>
    ⟨⟨t.span, .unresolvedLabel t.name⟩, e.line⟩

/-- What a source line comes to when it is read once, with all labels known. -/
inductive Outcome where
  | silent
  | fails (d : Diagnostic)
  | emits (e : Emission)

def Outcome.emission? : Outcome → Option Emission
  | .emits e => some e
  | _ => none

def Outcome.diagnostic? : Outcome → Option Diagnostic
  | .fails d => some d
  | _ => none

def Outcome.bytes : Outcome → List UInt8
  | .emits e => e.instr.encode
  | _ => []

def Outcome.unresolved (labels : LabelTable) : Outcome → List Diagnostic
  | .emits e => e.unresolved labels
  | _ => []

def Statement.outcome (s : Statement) (labels : LabelTable) (line offset : Nat) : Outcome :=
  match s.instr labels with
  | .error c => .fails { c with line }
  | .ok i =>
    if offset + i.size ≤ windowSize then .emits ⟨line, offset, s, i⟩
    else .fails ⟨⟨s.span, .programTooLarge offset⟩, line⟩

/-- What the part of a line after its label comes to. -/
def SourceLine.bodyOutcome (line : SourceLine) (labels : LabelTable) (offset : Nat) : Outcome :=
  match line.body with
  | [] => .silent
  | head :: operands =>
    match Statement.ofTokens head operands with
    | .error c => .fails { toComplaint := c, line := line.number }
    | .ok s => s.outcome labels line.number offset

/-- What a line comes to at `offset`, where earlier lines have defined the names `taken`. -/
def SourceLine.outcome (line : SourceLine) (labels : LabelTable) (taken : List String) (offset : Nat) :
    Outcome :=
  match line.label? with
  | some name =>
    if name.name ∈ taken then .fails ⟨⟨name.span, .duplicateLabel name.name⟩, line.number⟩
    else line.bodyOutcome labels offset
  | none => line.bodyOutcome labels offset

/-- The names that a line adds to those taken. -/
def SourceLine.names (line : SourceLine) : List String :=
  line.label?.toList.map Token.name

/-- What source lines come to, one after the other. -/
def outcomes (labels : LabelTable) : List String → Nat → List SourceLine → List Outcome
  | _, _, [] => []
  | taken, offset, line :: lines =>
    let outcome := line.outcome labels taken offset
    outcome :: outcomes labels (line.names ++ taken) (offset + outcome.bytes.length) lines

/-- The instructions of a source text, read against a label table. -/
def emissions (labels : LabelTable) (source : String) : List Emission :=
  (outcomes labels [] 0 (sourceLines source.toList)).filterMap Outcome.emission?

theorem flatMap_bytes_eq (os : List Outcome) :
    os.flatMap Outcome.bytes = (os.filterMap Outcome.emission?).flatMap fun e => e.instr.encode := by
  induction os with
  | nil => rfl
  | cons o os ih => cases o <;> simp [Outcome.bytes, Outcome.emission?, List.filterMap_cons, ih]

theorem flatMap_unresolved_eq (labels : LabelTable) (os : List Outcome) :
    os.flatMap (Outcome.unresolved labels) =
      (os.filterMap Outcome.emission?).flatMap fun e => e.unresolved labels := by
  induction os with
  | nil => rfl
  | cons o os ih => cases o <;> simp [Outcome.unresolved, Outcome.emission?, List.filterMap_cons, ih]

/-- An outcome is that of one of the lines. -/
theorem exists_of_mem_outcomes {labels : LabelTable} {taken : List String} {offset : Nat} {lines : List SourceLine}
    {o : Outcome} (h : o ∈ outcomes labels taken offset lines) :
    ∃ line ∈ lines, ∃ taken offset, line.outcome labels taken offset = o := by
  induction lines generalizing taken offset with
  | nil => cases h
  | cons line lines ih =>
    rcases List.mem_cons.mp h with first | rest
    · exact ⟨line, List.mem_cons_self, taken, offset, first.symm⟩
    · obtain ⟨later, mem, outcome⟩ := ih rest
      exact ⟨later, List.mem_cons_of_mem _ mem, outcome⟩

theorem Outcome.emission?_eq_some {o : Outcome} {e : Emission} : o.emission? = some e ↔ o = .emits e := by
  cases o <;> simp [Outcome.emission?]

theorem Statement.outcome_emits {s : Statement} {labels : LabelTable} {line offset : Nat} {e : Emission}
    (h : s.outcome labels line offset = .emits e) :
    s.instr labels = .ok e.instr ∧ e = ⟨line, offset, s, e.instr⟩ ∧ offset + e.instr.size ≤ windowSize := by
  unfold Statement.outcome at h
  split at h
  next => cases h
  next i hi =>
    split at h
    next fits =>
      cases h
      exact ⟨hi, rfl, fits⟩
    next => cases h

theorem SourceLine.bodyOutcome_of_emits {line : SourceLine} {labels : LabelTable} {taken : List String}
    {offset : Nat} {e : Emission} (h : line.outcome labels taken offset = .emits e) :
    line.bodyOutcome labels offset = .emits e := by
  unfold SourceLine.outcome at h
  split at h
  next =>
    split at h
    next => cases h
    next => exact h
  next => exact h

theorem SourceLine.outcome_emits {line : SourceLine} {labels : LabelTable} {taken : List String} {offset : Nat}
    {e : Emission} (h : line.outcome labels taken offset = .emits e) :
    ∃ head operands s, line.body = head :: operands ∧ Statement.ofTokens head operands = .ok s ∧
      s.outcome labels line.number offset = .emits e := by
  have emits := SourceLine.bodyOutcome_of_emits h
  unfold SourceLine.bodyOutcome at emits
  split at emits
  next => cases emits
  next head operands body =>
    split at emits
    next => cases emits
    next s hs => exact ⟨head, operands, s, body, hs, emits⟩

/-- Why a line fails: its label is taken, its tokens make no statement, the statement makes no instruction, or there
is no room for the instruction. -/
inductive SourceLine.Fails (line : SourceLine) (labels : LabelTable) (taken : List String) (offset : Nat) :
    Complaint → Prop
  | label {name : Token} (label : line.label? = some name) (old : name.name ∈ taken) :
      Fails line labels taken offset ⟨name.span, .duplicateLabel name.name⟩
  | tokens {head : Token} {operands : List Token} {c : Complaint} (body : line.body = head :: operands)
      (unread : Statement.ofTokens head operands = .error c) : Fails line labels taken offset c
  | operands {head : Token} {operands : List Token} {s : Statement} {c : Complaint} (body : line.body = head :: operands)
      (read : Statement.ofTokens head operands = .ok s) (unmade : s.instr labels = .error c) :
      Fails line labels taken offset c
  | room {head : Token} {operands : List Token} {s : Statement} {i : Instr} (body : line.body = head :: operands)
      (read : Statement.ofTokens head operands = .ok s) (made : s.instr labels = .ok i)
      (full : windowSize < offset + i.size) : Fails line labels taken offset ⟨s.span, .programTooLarge offset⟩

theorem SourceLine.fails_of_bodyOutcome {line : SourceLine} {labels : LabelTable} {offset : Nat} {d : Diagnostic}
    (h : line.bodyOutcome labels offset = .fails d) (taken : List String) :
    d.line = line.number ∧ line.Fails labels taken offset d.toComplaint := by
  unfold SourceLine.bodyOutcome Statement.outcome at h
  split at h
  next => cases h
  next head operands body =>
    split at h
    next c unread =>
      cases h
      exact ⟨rfl, .tokens body unread⟩
    next s read =>
      split at h
      next c unmade =>
        cases h
        exact ⟨rfl, .operands body read unmade⟩
      next i made =>
        split at h
        next => cases h
        next full =>
          cases h
          exact ⟨rfl, .room body read made (Nat.lt_of_not_le full)⟩

theorem SourceLine.fails_of_outcome {line : SourceLine} {labels : LabelTable} {taken : List String} {offset : Nat}
    {d : Diagnostic} (h : line.outcome labels taken offset = .fails d) :
    d.line = line.number ∧ line.Fails labels taken offset d.toComplaint := by
  unfold SourceLine.outcome at h
  split at h
  next name label =>
    split at h
    next old =>
      cases h
      exact ⟨rfl, .label label old⟩
    next => exact SourceLine.fails_of_bodyOutcome h taken
  next => exact SourceLine.fails_of_bodyOutcome h taken

end I8080
