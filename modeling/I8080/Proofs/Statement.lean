import I8080.Assembly.Statement
import I8080.Proofs.Except
import I8080.Proofs.LabelTable
import I8080.Proofs.Mnemonic
import Mathlib.Data.List.Basic

namespace I8080

/-- The operands that are names of labels. -/
def Statement.references (s : Statement) : List Token :=
  ((s.mnemonic.kinds.zip s.operands).filter fun (kind, t) => kind.isWord && t.kind ≠ .number).map Prod.snd

theorem Statement.reference?_eq (s : Statement) (labels : LabelTable) :
    s.reference? labels =
      (s.references.find? fun t => (labels.get? t.name).isNone).map fun t => ⟨t.name, t.span⟩ := by
  unfold Statement.reference? Statement.references
  induction s.mnemonic.kinds.zip s.operands with
  | nil => rfl
  | cons first rest ih =>
    obtain ⟨kind, t⟩ := first
    rw [List.findSome?_cons, ih]
    by_cases hk : kind.isWord = true ∧ t.kind ≠ .number
    · by_cases hl : labels.get? t.name = none
      · simp [Token.reference?, hk, hl]
      · simp [Token.reference?, hk, hl]
    · have hr : t.reference? labels kind = none := by
        simp only [Token.reference?, ite_eq_right_iff]
        intro h
        exact absurd ⟨h.2.1, h.1⟩ hk
      have hf : (kind.isWord && decide (t.kind ≠ .number)) = false := by simpa using hk
      simp only [hr, List.filter_cons, hf, Bool.false_eq_true, if_false]

theorem Token.operand_label {t : Token} {kind : OperandKind} (word : kind.isWord = true)
    (number : t.kind ≠ .number) (labels : LabelTable) :
    t.operand labels kind = .ok (.value (labels.address t.name).toNat) := by
  unfold Token.operand LabelTable.address
  rw [if_neg number, if_pos word]
  cases labels.get? t.name <;> rfl

theorem Token.operand_unlabelled {t : Token} {kind : OperandKind}
    (h : ¬(kind.isWord = true ∧ t.kind ≠ .number)) (labels other : LabelTable) :
    t.operand labels kind = t.operand other kind := by
  unfold Token.operand
  by_cases number : t.kind = .number
  · simp [number]
  · have word : ¬kind.isWord = true := fun word => h ⟨word, number⟩
    simp [number, word]

/-- The operands of a statement, read from their tokens. -/
def Statement.readOperands (s : Statement) (labels : LabelTable) : Except Complaint (List Operand) :=
  (s.mnemonic.kinds.zip s.operands).mapM fun pair => pair.2.operand labels pair.1

theorem Statement.instr_of_operand_error {s : Statement} {labels : LabelTable} {c : Complaint}
    (h : s.readOperands labels = .error c) : s.instr labels = .error c := by
  change (s.readOperands labels >>= _) = _
  rw [h]
  rfl

theorem Statement.instr_of_operands {s : Statement} {labels : LabelTable} {operands : List Operand}
    (h : s.readOperands labels = .ok operands) :
    s.instr labels = (s.mnemonic.instr operands).mapError fun e =>
      ⟨(s.operands[e.operand]?.map Token.span).getD s.span, e.error⟩ := by
  change (s.readOperands labels >>= _) = _
  rw [h]
  cases hi : s.mnemonic.instr operands <;> simp [bind, Except.bind, hi] <;> rfl

/-- Why a statement makes no instruction: one of its operands cannot be read, or they do not suit its mnemonic. -/
inductive Statement.Unmade (s : Statement) (labels : LabelTable) : Complaint → Prop
  | token {kind : OperandKind} {t : Token} {c : Complaint} (mem : (kind, t) ∈ s.mnemonic.kinds.zip s.operands)
      (unread : t.operand labels kind = .error c) : Unmade s labels c
  | operand {operands : List Operand} {e : OperandError} (read : s.readOperands labels = .ok operands)
      (unfit : s.mnemonic.instr operands = .error e) :
      Unmade s labels ⟨(s.operands[e.operand]?.map Token.span).getD s.span, e.error⟩

theorem Statement.unmade_of_instr {s : Statement} {labels : LabelTable} {c : Complaint}
    (h : s.instr labels = .error c) : s.Unmade labels c := by
  cases ho : s.readOperands labels with
  | error c' =>
    cases (Statement.instr_of_operand_error ho).symm.trans h
    obtain ⟨⟨kind, t⟩, mem, unread⟩ := mapM_error ho
    exact .token mem unread
  | ok operands =>
    rw [Statement.instr_of_operands ho] at h
    cases hi : s.mnemonic.instr operands with
    | error e =>
      rw [hi] at h
      cases h
      exact .operand ho hi
    | ok i =>
      rw [hi] at h
      cases h

theorem Statement.instr_unlabelled {s : Statement} (h : s.references = []) (labels other : LabelTable) :
    s.instr labels = s.instr other := by
  have operand : ∀ pair ∈ s.mnemonic.kinds.zip s.operands,
      pair.2.operand labels pair.1 = pair.2.operand other pair.1 := by
    intro pair hp
    refine Token.operand_unlabelled ?_ labels other
    intro hw
    have hf := List.map_eq_nil_iff.mp h
    simpa [hw] using List.filter_eq_nil_iff.mp hf pair hp
  have same : s.readOperands labels = s.readOperands other := mapM_eq_of_forall_mem operand
  cases ho : s.readOperands other with
  | error c => rw [Statement.instr_of_operand_error ho, Statement.instr_of_operand_error (same.trans ho)]
  | ok operands => rw [Statement.instr_of_operands ho, Statement.instr_of_operands (same.trans ho)]

theorem Statement.instr_eq_ok {s : Statement} {labels : LabelTable} {i : Instr} (h : s.instr labels = .ok i) :
    ∃ operands, s.mnemonic.instr operands = .ok i := by
  cases ho : s.readOperands labels with
  | error c =>
    rw [Statement.instr_of_operand_error ho] at h
    cases h
  | ok operands =>
    rw [Statement.instr_of_operands ho] at h
    cases hi : s.mnemonic.instr operands with
    | error e =>
      rw [hi] at h
      cases h
    | ok j =>
      rw [hi] at h
      cases h
      exact ⟨operands, hi⟩

/-- How the instruction of a statement depends on the labels: not at all, or through the address of one of
them, which stands in the two bytes after the opcode. -/
inductive Statement.Meaning (s : Statement) : Prop
  | fails (c : Complaint) (instr : ∀ labels, s.instr labels = .error c)
  | fixed (i : Instr) (instr : ∀ labels, s.instr labels = .ok i) (closed : s.references = [])
  | refers (t : Token) (build : UInt16 → Instr) (opcode : UInt8)
      (encode : ∀ w, (build w).encode = withWord opcode w)
      (instr : ∀ labels, s.instr labels = .ok (build (labels.address t.name)))
      (single : s.references = [t])

theorem Statement.meaning_of_unlabelled {s : Statement} (h : s.references = []) : s.Meaning := by
  cases hi : s.instr {} with
  | error c => exact .fails c fun labels => (s.instr_unlabelled h labels {}).trans hi
  | ok i => exact .fixed i (fun labels => (s.instr_unlabelled h labels {}).trans hi) h

theorem Statement.meaning_unary {name : String} {make : UInt16 → Instr} {opcode : UInt8} {head t : Token}
    {length : [t].length = (Mnemonic.unary name .address make).arity}
    (encode : ∀ w, (make w).encode = withWord opcode w) (number : t.kind ≠ .number) :
    Statement.Meaning ⟨.unary name .address make, head, [t], length⟩ := by
  refine .refers t make opcode encode ?_ ?_
  · intro labels
    have operand : t.operand labels .address = _ := Token.operand_label rfl number labels
    have operands : Statement.readOperands ⟨.unary name .address make, head, [t], length⟩ labels =
        .ok [.value (labels.address t.name).toNat] := by
      simp [Statement.readOperands, Mnemonic.unary, operand]
    rw [Statement.instr_of_operands operands]
    exact congrArg _ (Mnemonic.instr_unary (OperandKind.read_address name _))
  · simp [Statement.references, Mnemonic.unary, number, OperandKind.isWord]

/-- Of the two operands of `lxi`, the pair decides whether there is an instruction, and the label only
which. -/
theorem Statement.meaning_lxi {head first second : Token}
    {length : [first, second].length = (Mnemonic.mk "lxi" [.pair .any, .word] .lxi).arity}
    (number : second.kind ≠ .number) :
    Statement.Meaning ⟨⟨"lxi", [.pair .any, .word], .lxi⟩, head, [first, second], length⟩ := by
  have pair : ∀ labels, first.operand labels (.pair .any) = first.operand {} (.pair .any) :=
    fun labels => Token.operand_unlabelled (by simp [OperandKind.isWord]) labels {}
  have word : ∀ labels, second.operand labels .word = _ := Token.operand_label rfl number
  cases hf : first.operand {} (.pair .any) with
  | error c =>
    refine .fails c fun labels => Statement.instr_of_operand_error ?_
    simp [Statement.readOperands, pair labels, hf]
    rfl
  | ok o =>
    have operands : ∀ labels, Statement.readOperands
        ⟨⟨"lxi", [.pair .any, .word], .lxi⟩, head, [first, second], length⟩ labels =
          .ok [o, .value (labels.address second.name).toNat] := by
      intro labels
      simp [Statement.readOperands, pair labels, hf, word]
      rfl
    cases hr : OperandKind.read "lxi" (.pair .any) o with
    | error e =>
      refine .fails ⟨first.span, e⟩ fun labels => ?_
      rw [Statement.instr_of_operands (operands labels)]
      simp [Mnemonic.instr, Mnemonic.arity, OperandKind.readAll, hr, Except.mapError]
    | ok p =>
      refine .refers second (.lxi p) _ (fun w => rfl) ?_ ?_
      · intro labels
        rw [Statement.instr_of_operands (operands labels)]
        have read : OperandKind.readAll "lxi" 0 [.pair .any, .word]
            [o, .value (labels.address second.name).toNat] rfl = .ok (p, labels.address second.name, ()) := by
          simp [OperandKind.readAll, hr, OperandKind.read_word, Except.map]
        exact congrArg _ (Mnemonic.instr_of_build read rfl)
      · simp [Statement.references, number, OperandKind.isWord]

theorem Statement.meaning {s : Statement} (hm : s.mnemonic ∈ Mnemonic.table) : s.Meaning := by
  by_cases h : s.references = []
  · exact s.meaning_of_unlabelled h
  obtain ⟨m, head, operands, length⟩ := s
  obtain ⟨⟨kind, t⟩, hp, hw⟩ : ∃ pair ∈ m.kinds.zip operands,
      (pair.1.isWord && decide (pair.2.kind ≠ .number)) = true := by
    simpa [Statement.references] using h
  obtain ⟨word, number⟩ : kind.isWord = true ∧ t.kind ≠ .number := by simpa using hw
  cases Mnemonic.addressing hm with
  | none wordless =>
    have hk := wordless kind (List.of_mem_zip hp).1
    rw [hk] at word
    cases word
  | only name build opcode encode =>
    obtain ⟨only, rfl⟩ := List.length_eq_one_iff.mp length
    obtain ⟨rfl, rfl⟩ : kind = .address ∧ t = only := by simpa [Mnemonic.unary] using hp
    exact Statement.meaning_unary encode number
  | second =>
    obtain ⟨first, second, rfl⟩ := List.length_eq_two.mp length
    obtain ⟨rfl, rfl⟩ : kind = .word ∧ t = second := by
      rcases List.mem_cons.mp hp with heq | hp
      · obtain ⟨rfl, rfl⟩ := Prod.mk.inj heq
        cases word
      · simpa using hp
    exact Statement.meaning_lxi number

theorem Statement.ofTokens_eq_ok {head : Token} {operands : List Token} {s : Statement}
    (h : Statement.ofTokens head operands = .ok s) :
    head.kind = .ident ∧ (∀ t ∈ operands, t.isOperand = true) ∧ Mnemonic.find? head.name = some s.mnemonic ∧
      s.head = head ∧ s.operands = operands := by
  unfold Statement.ofTokens at h
  split at h
  next => cases h
  next ident =>
    split at h
    next => cases h
    next all =>
      split at h
      next => cases h
      next m hm =>
        split at h
        next =>
          cases h
          exact ⟨Decidable.not_not.mp ident, by simpa using all, hm, rfl, rfl⟩
        next => cases h

/-- Why tokens make no statement. -/
inductive Statement.Unread (head : Token) (operands : List Token) : Complaint → Prop
  | head (other : head.kind ≠ .ident) : Unread head operands ⟨head.span, .unexpectedToken head.name⟩
  | operand {t : Token} (mem : t ∈ operands) (other : t.isOperand = false) :
      Unread head operands ⟨t.span, .unexpectedToken t.name⟩
  | unknown (missing : Mnemonic.find? head.name = none) : Unread head operands ⟨head.span, .unknownMnemonic head.name⟩
  | arity {m : Mnemonic} (ident : head.kind = .ident) (plain : ∀ t ∈ operands, t.isOperand = true)
      (known : Mnemonic.find? head.name = some m) (wrong : operands.length ≠ m.arity) :
      Unread head operands ⟨statementSpan head operands, .wrongArity m.name m.arity operands.length⟩

theorem Statement.unread_of_ofTokens {head : Token} {operands : List Token} {c : Complaint}
    (h : Statement.ofTokens head operands = .error c) : Statement.Unread head operands c := by
  unfold Statement.ofTokens at h
  split at h
  next other =>
    cases h
    exact .head other
  next ident =>
    split at h
    next t found =>
      cases h
      exact .operand (List.mem_of_find?_eq_some found) (by simpa using List.find?_some found)
    next all =>
      split at h
      next missing =>
        cases h
        exact .unknown missing
      next m known =>
        split at h
        next => cases h
        next wrong =>
          cases h
          exact .arity (Decidable.not_not.mp ident) (by simpa using all) known wrong

theorem Statement.mnemonic_mem_table {head : Token} {operands : List Token} {s : Statement}
    (h : Statement.ofTokens head operands = .ok s) : s.mnemonic ∈ Mnemonic.table := by
  obtain ⟨-, -, found, -⟩ := Statement.ofTokens_eq_ok h
  exact List.mem_of_find?_eq_some found

end I8080
