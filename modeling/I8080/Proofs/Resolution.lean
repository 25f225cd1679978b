import I8080.Proofs.Assemble

namespace I8080

def AsmError.isUnresolved : AsmError → Bool
  | .unresolvedLabel _ => true
  | _ => false

/-- The label that an error is about. -/
def AsmError.labelName? : AsmError → Option String
  | .duplicateLabel name | .unresolvedLabel name => some name
  | _ => none

theorem AsmError.isUnresolved_of_labelName? {e : AsmError} (h : e.labelName? = none) : e.isUnresolved = false := by
  cases e <;> first | rfl | cases h

/-- What can be wrong with an operand on its own. -/
inductive Operand.Misfit (mnemonic : String) : Operand → AsmError → Prop
  | unknown (text : String) (kind : OperandKind) : Misfit mnemonic (.name text) (.unknownRegister mnemonic text kind)
  | shape (operand : Operand) (expected : Expectation) (alone : expected ≠ .otherKind) :
    Misfit mnemonic operand (.invalidOperand mnemonic expected)
  | range (n : Int) (bits : Nat) : Misfit mnemonic (.value n) (.literalOutOfRange n bits)

theorem OperandKind.read_error {mnemonic : String} {kind : OperandKind} {operand : Operand} {e : AsmError}
    (h : kind.read mnemonic operand = .error e) : Operand.Misfit mnemonic operand e := by
  unfold OperandKind.read readNumber at h
  split at h
  all_goals first
    | cases h; exact .shape _ _ nofun
    | split at h
      next => cases h
      next => cases h; constructor

theorem Operand.Misfit.labelName? {mnemonic : String} {operand : Operand} {e : AsmError}
    (h : Operand.Misfit mnemonic operand e) : e.labelName? = none := by
  cases h <;> rfl

/-- The operand to blame is the first that is not read as a value of its kind. -/
theorem OperandKind.readAll_error {mnemonic : String} {start : Nat} {kinds : List OperandKind}
    {operands : List Operand} {length : operands.length = kinds.length} {e : OperandError}
    (h : OperandKind.readAll mnemonic start kinds operands length = .error e) :
    ∃ k kind operand, e.operand = start + k ∧ (kinds.zip operands)[k]? = some (kind, operand) ∧
      kind.read mnemonic operand = .error e.error ∧
      ∀ pair ∈ (kinds.zip operands).take k, ∃ value, pair.1.read mnemonic pair.2 = .ok value := by
  induction kinds generalizing start operands with
  | nil => simp [OperandKind.readAll] at h
  | cons kind kinds ih =>
    cases operands with
    | nil => cases length
    | cons operand operands =>
      unfold OperandKind.readAll at h
      split at h
      next error unfit =>
        cases h
        exact ⟨0, kind, operand, rfl, rfl, unfit, List.forall_mem_nil _⟩
      next value read =>
        cases hs : OperandKind.readAll mnemonic (start + 1) kinds operands (Nat.succ.inj length) with
        | error e' =>
          rw [hs] at h
          cases h
          obtain ⟨k, kind', operand', place, found, unfit, before⟩ := ih hs
          refine ⟨k + 1, kind', operand', by omega, found, unfit, ?_⟩
          rw [List.zip_cons_cons, List.take_succ_cons, List.forall_mem_cons]
          exact ⟨⟨value, read⟩, before⟩
        | ok values =>
          rw [hs] at h
          cases h

/-- The operand that is to blame is one of those that there are. -/
theorem Mnemonic.operand_lt {m : Mnemonic} (hm : m ∈ Mnemonic.table) {operands : List Operand} {e : OperandError}
    (length : operands.length = m.arity) (h : m.instr operands = .error e) : e.operand < m.arity := by
  rcases Mnemonic.instr_eq_error length h with read | ⟨values, unbuilt, -, failed, rfl⟩
  · obtain ⟨k, kind, operand, place, found, -⟩ := OperandKind.readAll_error read
    have inside := (List.getElem?_eq_some_iff.mp found).1
    rw [List.length_zip, ← Mnemonic.arity] at inside
    omega
  · cases Mnemonic.joins hm with
    | mov =>
      cases Mnemonic.suits hm values unbuilt failed
      exact Nat.lt_succ_self 1
    | always _ built =>
      obtain ⟨i, made⟩ := built values
      cases made.symm.trans failed

theorem Mnemonic.instr_error {m : Mnemonic} {operands : List Operand} {e : OperandError}
    (h : m.instr operands = .error e) : e.error.labelName? = none := by
  by_cases length : operands.length = m.arity
  · rcases Mnemonic.instr_eq_error length h with read | ⟨-, -, -, -, rfl⟩
    · obtain ⟨-, kind, operand, -, -, unfit, -⟩ := OperandKind.readAll_error read
      exact (OperandKind.read_error unfit).labelName?
    · rfl
  · cases h.symm.trans (Mnemonic.instr_of_arity length)
    rfl

theorem Token.operand_error {t : Token} {labels : LabelTable} {kind : OperandKind} {c : Complaint}
    (h : t.operand labels kind = .error c) : c = ⟨t.span, .malformedLiteral t.name⟩ := by
  unfold Token.operand at h
  split at h
  next =>
    split at h
    next => cases h
    next => cases h; rfl
  next => split at h <;> cases h

theorem Statement.instr_error {s : Statement} {labels : LabelTable} {c : Complaint}
    (h : s.instr labels = .error c) : c.error.isUnresolved = false := by
  cases Statement.unmade_of_instr h with
  | token _ unread =>
    rw [Token.operand_error unread]
    rfl
  | operand _ unfit => exact AsmError.isUnresolved_of_labelName? (Mnemonic.instr_error unfit)

theorem Statement.ofTokens_error {head : Token} {operands : List Token} {c : Complaint}
    (h : Statement.ofTokens head operands = .error c) : c.error.isUnresolved = false := by
  cases Statement.unread_of_ofTokens h <;> rfl

theorem SourceLine.outcome_error {line : SourceLine} {labels : LabelTable} {taken : List String}
    {offset : Nat} {d : Diagnostic} (h : line.outcome labels taken offset = .fails d) :
    d.error.isUnresolved = false := by
  obtain ⟨⟨span, error⟩, number⟩ := d
  obtain ⟨-, fails⟩ := SourceLine.fails_of_outcome h
  cases fails with
  | label | room => rfl
  | tokens _ unread => exact Statement.ofTokens_error unread
  | operands _ _ unmade => exact Statement.instr_error unmade

theorem outcomes_error {labels : LabelTable} {taken : List String} {offset : Nat} {lines : List SourceLine}
    {d : Diagnostic} (h : .fails d ∈ outcomes labels taken offset lines) : d.error.isUnresolved = false := by
  obtain ⟨line, -, taken, offset, fails⟩ := exists_of_mem_outcomes h
  exact SourceLine.outcome_error fails

theorem sourceLines_ordered (source : List Char) :
    (sourceLines source).Pairwise fun line next => line.number < next.number := by
  unfold sourceLines
  refine List.Pairwise.filter _ ?_
  have numbers : (((splitLines (tokenize source)).zipIdx 1).map Prod.snd).Pairwise (· < ·) := by
    rw [List.zipIdx_map_snd]
    exact List.pairwise_lt_range'
  rw [List.pairwise_map] at numbers ⊢
  exact numbers

theorem SourceLine.outcome_line {line : SourceLine} {labels : LabelTable} {taken : List String} {offset : Nat}
    {e : Emission} (h : line.outcome labels taken offset = .emits e) : e.line = line.number := by
  obtain ⟨_, _, s, -, -, outcome⟩ := SourceLine.outcome_emits h
  obtain ⟨_, he, _⟩ := Statement.outcome_emits outcome
  rw [he]

theorem outcomes_line {labels : LabelTable} {taken : List String} {offset : Nat} {lines : List SourceLine}
    {e : Emission} (h : .emits e ∈ outcomes labels taken offset lines) : ∃ line ∈ lines, e.line = line.number := by
  obtain ⟨line, mem, taken, offset, emits⟩ := exists_of_mem_outcomes h
  exact ⟨line, mem, SourceLine.outcome_line emits⟩

theorem outcomes_ordered {labels : LabelTable} {taken : List String} {offset : Nat} {lines : List SourceLine}
    (ordered : lines.Pairwise fun line next => line.number < next.number) :
    ((outcomes labels taken offset lines).filterMap Outcome.emission?).Pairwise fun e e' => e.line < e'.line := by
  induction lines generalizing taken offset with
  | nil => exact .nil
  | cons line lines ih =>
    obtain ⟨above, rest⟩ := List.pairwise_cons.mp ordered
    simp only [outcomes, List.filterMap_cons]
    split
    next => exact ih rest
    next e he =>
      refine List.pairwise_cons.mpr ⟨?_, ih rest⟩
      intro e' he'
      obtain ⟨o, mem, ho⟩ := List.mem_filterMap.mp he'
      rw [Outcome.emission?_eq_some.mp ho] at mem
      obtain ⟨line', mem', hline'⟩ := outcomes_line mem
      rw [SourceLine.outcome_line (Outcome.emission?_eq_some.mp he), hline']
      exact above line' mem'

theorem filter_mergeSort_append {α : Type} {le : α → α → Bool} {p : α → Bool} {as bs : List α}
    (trans : ∀ a b c, le a b → le b c → le a c) (total : ∀ a b, le a b || le b a)
    (out : ∀ a ∈ as, p a = false) (keep : ∀ b ∈ bs, p b = true) (sorted : bs.Pairwise fun a b => le a b) :
    ((as ++ bs).mergeSort le).filter p = bs := by
  have kept : (as ++ bs).filter p = bs := by
    rw [List.filter_append, List.filter_eq_nil_iff.mpr (by simpa using out), List.filter_eq_self.mpr keep,
      List.nil_append]
  have sub := (List.sublist_mergeSort trans total sorted (List.sublist_append_right as bs)).filter p
  rw [List.filter_eq_self.mpr keep] at sub
  refine (sub.eq_of_length ?_).symm
  rw [((List.mergeSort_perm (as ++ bs) le).filter p).length_eq, kept]

theorem unresolved_ordered (labels : LabelTable) (source : String) :
    ((emissions labels source).flatMap fun e => e.unresolved labels).Pairwise fun d e => d.line ≤ e.line := by
  have line : ∀ e : Emission, ∀ d ∈ e.unresolved labels, d.line = e.line := by
    intro e d hd
    obtain ⟨t, _, rfl⟩ := List.mem_map.mp hd
    rfl
  refine List.pairwise_flatMap.mpr ⟨?_, ?_⟩
  · intro e _
    refine List.pairwise_of_forall_mem_list fun d hd d' hd' => ?_
    have first := line e d hd
    have second := line e d' hd'
    omega
  · refine (outcomes_ordered (sourceLines_ordered source.toList)).imp ?_
    intro e e' lt d hd d' hd'
    rw [line e d hd, line e' d' hd']
    omega

theorem line_le_trans (d e f : Diagnostic) :
    decide (d.line ≤ e.line) = true → decide (e.line ≤ f.line) = true → decide (d.line ≤ f.line) = true := by
  simp only [decide_eq_true_eq]
  exact Nat.le_trans

theorem line_le_total (d e : Diagnostic) : (decide (d.line ≤ e.line) || decide (e.line ≤ d.line)) = true := by
  simp only [Bool.or_eq_true, decide_eq_true_eq]
  exact Nat.le_total _ _

theorem filter_isUnresolved_diagnostics (source : String) :
    ((assemble source).diagnostics.filter fun d => d.error.isUnresolved) =
      (emissions (assemble source).labels source).flatMap fun e => e.unresolved (assemble source).labels := by
  rw [assemble_diagnostics]
  refine filter_mergeSort_append line_le_trans line_le_total ?_ ?_ ?_
  · intro d hd
    obtain ⟨o, mem, ho⟩ := List.mem_filterMap.mp hd
    cases o with
    | fails d' =>
      cases ho
      exact outcomes_error mem
    | silent => cases ho
    | emits e => cases ho
  · intro d hd
    obtain ⟨e, _, he⟩ := List.mem_flatMap.mp hd
    obtain ⟨t, _, rfl⟩ := List.mem_map.mp he
    rfl
  · simpa using unresolved_ordered (assemble source).labels source

/-- Two passes and patches come to the same as one reading with all labels known. -/
theorem assemble_resolves_references (source : String) :
    (assemble source).image.toList =
        zeroPadded ((emissions (assemble source).labels source).flatMap fun e => e.instr.encode) ∧
      (assemble source).listing = (emissions (assemble source).labels source).map Emission.entry ∧
      ((assemble source).diagnostics.filter fun d => d.error.isUnresolved) =
        (emissions (assemble source).labels source).flatMap fun e => e.unresolved (assemble source).labels :=
  ⟨Image.toList_of_ofBytes? (assemble_image source), assemble_listing source,
    filter_isUnresolved_diagnostics source⟩

end I8080
