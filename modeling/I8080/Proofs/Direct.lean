import I8080.Proofs.Account
import I8080.Proofs.Encoding
import I8080.Proofs.StatementText

namespace I8080

/-- The text of operands before one that is not the last. -/
def operandLead (earlier : List Operand) : List Char :=
  earlier.flatMap fun o => o.text.toList ++ [',', ' ']

/-- Where an operand stands in the text of a statement, behind `earlier` operands. -/
def operandSpan (mnemonic : String) (earlier : List Operand) (o : Operand) : Span where
  start := byteLength (mnemonic.toList ++ ' ' :: operandLead earlier)
  length := byteLength o.text.toList

/-- The text from the mnemonic through the last operand. -/
def textSpan (mnemonic : String) (operands : List Operand) : Span where
  start := 0
  length := byteLength (if operands = [] then mnemonic else statementText mnemonic operands).toList

/-- What there is to blame where a name and operands make no instruction: the mnemonic if it is none, all of the
statement if the operands are too few or too many, and otherwise the operand that does not fit. -/
inductive Blames (mnemonic : String) (operands : List Operand) : Span → Prop
  | unknown (missing : Mnemonic.find? mnemonic = none) : Blames mnemonic operands ⟨0, byteLength mnemonic.toList⟩
  | arity (m : Mnemonic) (found : Mnemonic.find? mnemonic = some m) (wrong : operands.length ≠ m.arity) :
      Blames mnemonic operands (textSpan mnemonic operands)
  | operand (m : Mnemonic) (found : Mnemonic.find? mnemonic = some m) (right : operands.length = m.arity)
      (e : OperandError) (fails : m.instr operands = .error e) (o : Operand) (unfit : operands[e.operand]? = some o) :
      Blames mnemonic operands (operandSpan mnemonic (operands.take e.operand) o)

theorem getElem?_operandTokens (start : Nat) (os : List Operand) (k : Nat) :
    (operandTokens start os)[k]? =
      os[k]?.map fun o => ⟨o.token, o.text.toList, start + byteLength (operandLead (os.take k))⟩ := by
  induction os generalizing start k with
  | nil => rfl
  | cons o os ih =>
    cases k with
    | zero => rfl
    | succ k =>
      have lead : byteLength (operandLead (o :: os.take k)) =
          byteLength o.text.toList + 2 + byteLength (operandLead (os.take k)) := by
        rw [operandLead, List.flatMap_cons, byteLength_append, byteLength_append]
        rfl
      rw [operandTokens, List.getElem?_cons_succ, ih, List.getElem?_cons_succ, List.take_succ_cons, lead,
        ← Nat.add_assoc, ← Nat.add_assoc]

theorem length_operandTokens (start : Nat) (os : List Operand) : (operandTokens start os).length = os.length := by
  induction os generalizing start with
  | nil => rfl
  | cons o os ih => rw [operandTokens, List.length_cons, ih, List.length_cons]

theorem Span.join_zero {start stop length : Nat} (before : stop ≤ start) :
    Span.join ⟨0, stop⟩ ⟨start, length⟩ = ⟨0, start + length⟩ := by
  simp only [Span.join, Span.stop, Span.mk.injEq]
  omega

/-- The span of the tokens of operands reaches from what stands before them to the end of the last. -/
theorem foldl_join_operandTokens {start stop : Nat} (o : Operand) (os : List Operand) (before : stop ≤ start) :
    (operandTokens start (o :: os)).foldl (fun (span : Span) t => span.join t.span) ⟨0, stop⟩ =
      ⟨0, start + byteLength (operandRow (o :: os))⟩ := by
  rw [operandTokens, List.foldl_cons, Token.span, Span.join_zero before]
  induction os generalizing o start stop with
  | nil => simp [operandTokens, operandRow]
  | cons next os ih =>
    have past : start + byteLength o.text.toList ≤ start + byteLength o.text.toList + 2 := Nat.le_add_right _ 2
    have length : byteLength (operandRow (o :: next :: os)) =
        byteLength o.text.toList + 2 + byteLength (operandRow (next :: os)) := by
      rw [operandRow_cons, byteLength_append, byteLength_append]
      rfl
    rw [operandTokens, List.foldl_cons, Token.span, Span.join_zero past, ih next past, length, ← Nat.add_assoc,
      ← Nat.add_assoc]

theorem statementSpan_operandTokens (mnemonic : String) (operands : List Operand) (kind : Token.Kind) :
    statementSpan ⟨kind, mnemonic.toList, 0⟩ (operandTokens (byteLength mnemonic.toList + 1) operands) =
      textSpan mnemonic operands := by
  cases operands with
  | nil => rfl
  | cons o os =>
    have length : byteLength (statementText mnemonic (o :: os)).toList =
        byteLength mnemonic.toList + 1 + byteLength (operandRow (o :: os)) := by
      rw [toList_statementText, byteLength_append, Nat.add_assoc]
      rfl
    rw [textSpan, if_neg (List.cons_ne_nil _ _), length]
    exact foldl_join_operandTokens o os (Nat.le_succ _)

/-- A source of one line comes to what that line comes to. -/
theorem assemble_line {source : String} {line : SourceLine} (lines : sourceLines source.toList = [line])
    (unlabelled : line.label? = none) :
    (assemble source).diagnostics =
        (line.bodyOutcome (assemble source).labels 0).diagnostics (assemble source).labels ∧
      (assemble source).listing = (line.bodyOutcome (assemble source).labels 0).entries ∧
        (assemble source).image.toList = zeroPadded (line.bodyOutcome (assemble source).labels 0).bytes := by
  have outcome : outcomes (assemble source).labels [] 0 (sourceLines source.toList) =
      [line.bodyOutcome (assemble source).labels 0] := by
    rw [lines, outcomes, outcomes, SourceLine.outcome, unlabelled]
  refine ⟨?_, ?_, ?_⟩
  · rw [assemble_diagnostics_eq, outcome, List.flatMap_singleton]
  · rw [assemble_listing_eq, outcome, List.flatMap_singleton]
  · have image := assemble_image source
    rw [emissions, ← flatMap_bytes_eq, outcome, List.flatMap_singleton] at image
    exact Image.toList_of_ofBytes? image

/-- Operands of which none is the name of a label. -/
def Labelless (kinds : List OperandKind) (operands : List Operand) : Prop :=
  ∀ pair ∈ kinds.zip operands, pair.1.isWord = true → ∃ n, pair.2 = .value n

theorem Token.operand_of_written {o : Operand} (written : o.Written) {kind : OperandKind}
    (literal : kind.isWord = true → ∃ n, o = .value n) (start : Nat) (labels : LabelTable) :
    Token.operand ⟨o.token, o.text.toList, start⟩ labels kind = .ok o := by
  cases o with
  | name text =>
    have plain : ¬kind.isWord = true := by
      intro word
      obtain ⟨n, value⟩ := literal word
      cases value
    simp [Token.operand, Operand.token, plain, Token.name, Operand.text]
  | value n =>
    obtain ⟨low, high⟩ := written
    have small : n.natAbs ≤ 0x7FFFFFFFFFFFFFFF := by omega
    simp only [Token.operand, Operand.token, Operand.text, if_true, Literal.parse?_toString small]

/-- The tokens of operands are read as the operands that they were written from. -/
theorem readOperands_operandTokens {kinds : List OperandKind} {os : List Operand} (length : os.length = kinds.length)
    (written : ∀ o ∈ os, o.Written) (labelless : Labelless kinds os) (start : Nat) (labels : LabelTable) :
    ((kinds.zip (operandTokens start os)).mapM fun pair => pair.2.operand labels pair.1) = .ok os := by
  induction os generalizing kinds start with
  | nil =>
    rw [List.length_eq_zero_iff.mp length.symm]
    rfl
  | cons o os ih =>
    obtain ⟨kind, kinds, rfl⟩ := List.exists_cons_of_length_eq_add_one length.symm
    rw [List.forall_mem_cons] at written
    rw [Labelless, List.zip_cons_cons, List.forall_mem_cons] at labelless
    rw [operandTokens, List.zip_cons_cons, List.mapM_cons, Token.operand_of_written written.1 labelless.1,
      ih (Nat.succ.inj length) written.2 labelless.2]
    rfl

theorem references_operandTokens {kinds : List OperandKind} {os : List Operand} (labelless : Labelless kinds os)
    (start : Nat) :
    (kinds.zip (operandTokens start os)).filter (fun (kind, t) => kind.isWord && t.kind ≠ .number) = [] := by
  induction os generalizing kinds start with
  | nil => rw [operandTokens, List.zip_nil_right, List.filter_nil]
  | cons o os ih =>
    cases kinds with
    | nil => rfl
    | cons kind kinds =>
      rw [Labelless, List.zip_cons_cons, List.forall_mem_cons] at labelless
      have closed : ¬(kind.isWord && decide (o.token ≠ .number)) = true := by
        intro both
        rw [Bool.and_eq_true, decide_eq_true_eq] at both
        obtain ⟨n, value⟩ := labelless.1 both.1
        exact both.2 (congrArg Operand.token value)
      rw [operandTokens, List.zip_cons_cons, List.filter_cons]
      exact (if_neg closed).trans (ih labelless.2 _)

theorem label?_statementTokens (mnemonic : String) (operands : List Operand) :
    SourceLine.label? ⟨1, statementTokens mnemonic operands⟩ = none := by
  cases operands with
  | nil => rfl
  | cons o os => cases o <;> rfl

theorem ofTokens_statementTokens (mnemonic : String) (operands : List Operand) :
    Statement.ofTokens ⟨.ident, mnemonic.toList, 0⟩ (operandTokens (byteLength mnemonic.toList + 1) operands) =
      match Mnemonic.find? mnemonic with
      | none => .error ⟨⟨0, byteLength mnemonic.toList⟩, .unknownMnemonic mnemonic⟩
      | some m =>
        if h : (operandTokens (byteLength mnemonic.toList + 1) operands).length = m.arity then
          .ok ⟨m, ⟨.ident, mnemonic.toList, 0⟩, operandTokens (byteLength mnemonic.toList + 1) operands, h⟩
        else .error ⟨textSpan mnemonic operands, .wrongArity m.name m.arity operands.length⟩ := by
  have all : (operandTokens (byteLength mnemonic.toList + 1) operands).find? (fun t => !t.isOperand) = none := by
    rw [List.find?_eq_none]
    intro t ht
    obtain ⟨k, hk⟩ := List.mem_iff_getElem?.mp ht
    rw [getElem?_operandTokens] at hk
    obtain ⟨o, -, rfl⟩ := Option.map_eq_some_iff.mp hk
    cases o <;> simp [Token.isOperand, Operand.token]
  have name : Token.name ⟨.ident, mnemonic.toList, 0⟩ = mnemonic := String.ofList_toList
  rw [Statement.ofTokens, if_neg (by simp), all, name, statementSpan_operandTokens]
  dsimp only
  cases Mnemonic.find? mnemonic with
  | none => rfl
  | some m => simp only [length_operandTokens]

theorem bodyOutcome_statementTokens (mnemonic : String) (operands : List Operand) (labels : LabelTable) :
    SourceLine.bodyOutcome ⟨1, statementTokens mnemonic operands⟩ labels 0 =
      match Statement.ofTokens ⟨.ident, mnemonic.toList, 0⟩
        (operandTokens (byteLength mnemonic.toList + 1) operands) with
      | .error c => .fails ⟨c, 1⟩
      | .ok s => s.outcome labels 1 0 := by
  have body : SourceLine.body ⟨1, statementTokens mnemonic operands⟩ = statementTokens mnemonic operands := by
    rw [SourceLine.body, label?_statementTokens]
    rfl
  rw [SourceLine.bodyOutcome, body]
  rfl

/-- A statement reads its operands as they were written, so only the mnemonic can refuse them. -/
theorem instr_operandTokens {s : Statement} {operands : List Operand} {start : Nat}
    (tokens : s.operands = operandTokens start operands) (length : operands.length = s.mnemonic.arity)
    (written : ∀ o ∈ operands, o.Written) (labelless : Labelless s.mnemonic.kinds operands) (labels : LabelTable) :
    s.instr labels = (s.mnemonic.instr operands).mapError fun e =>
      ⟨(s.operands[e.operand]?.map Token.span).getD s.span, e.error⟩ := by
  have read : s.readOperands labels = .ok operands := by
    rw [Statement.readOperands, tokens]
    exact readOperands_operandTokens length written labelless _ labels
  rw [Statement.instr_of_operands read]

section Direct

variable {mnemonic : String} {operands : List Operand} {m : Mnemonic} (found : Mnemonic.find? mnemonic = some m)
  (length : operands.length = m.arity)

include found length

theorem bodyOutcome_of_arity (labels : LabelTable) :
    ∃ s : Statement, s.mnemonic = m ∧ s.operands = operandTokens (byteLength mnemonic.toList + 1) operands ∧
      SourceLine.bodyOutcome ⟨1, statementTokens mnemonic operands⟩ labels 0 = s.outcome labels 1 0 := by
  have tokens : (operandTokens (byteLength mnemonic.toList + 1) operands).length = m.arity := by
    rw [length_operandTokens, length]
  rw [bodyOutcome_statementTokens, ofTokens_statementTokens, found]
  dsimp only
  rw [dif_pos tokens]
  exact ⟨_, rfl, rfl, rfl⟩

variable (written : ∀ o ∈ operands, o.Written) (labelless : Labelless m.kinds operands)

include written labelless

/-- Where the operands make an instruction, the statement is emitted with just that. -/
theorem bodyOutcome_of_instr {i : Instr} (made : m.instr operands = .ok i) (labels : LabelTable) :
    ∃ e : Emission, SourceLine.bodyOutcome ⟨1, statementTokens mnemonic operands⟩ labels 0 = .emits e ∧
      e.line = 1 ∧ e.offset = 0 ∧ e.instr = i ∧ e.unresolved labels = [] := by
  obtain ⟨s, rfl, tokens, outcome⟩ := bodyOutcome_of_arity found length labels
  have instr := instr_operandTokens tokens length written labelless labels
  rw [made] at instr
  have fits : 0 + i.size ≤ windowSize := by
    have window : 3 ≤ windowSize := by decide
    have := i.size_le
    omega
  refine ⟨⟨1, 0, s, i⟩, ?_, rfl, rfl, rfl, ?_⟩
  · rw [outcome, Statement.outcome, instr]
    exact if_pos fits
  · have closed : s.references = [] := by
      rw [Statement.references, tokens, references_operandTokens labelless, List.map_nil]
    simp [Emission.unresolved, closed]

theorem bodyOutcome_of_unfit {e : OperandError} (fails : m.instr operands = .error e) (labels : LabelTable) :
    ∃ span, Blames mnemonic operands span ∧
      SourceLine.bodyOutcome ⟨1, statementTokens mnemonic operands⟩ labels 0 = .fails ⟨⟨span, e.error⟩, 1⟩ := by
  obtain ⟨s, rfl, tokens, outcome⟩ := bodyOutcome_of_arity found length labels
  have inside : e.operand < operands.length :=
    length ▸ Mnemonic.operand_lt (List.mem_of_find?_eq_some found) length fails
  have unfit : operands[e.operand]? = some operands[e.operand] := List.getElem?_eq_getElem inside
  have span : s.operands[e.operand]?.map Token.span =
      some (operandSpan mnemonic (operands.take e.operand) operands[e.operand]) := by
    have start : byteLength (mnemonic.toList ++ ' ' :: operandLead (operands.take e.operand)) =
        byteLength mnemonic.toList + 1 + byteLength (operandLead (operands.take e.operand)) := by
      rw [byteLength_append, Nat.add_assoc]
      rfl
    rw [tokens, getElem?_operandTokens, unfit, operandSpan, start]
    rfl
  have instr : s.instr labels = .error ⟨(s.operands[e.operand]?.map Token.span).getD s.span, e.error⟩ := by
    rw [instr_operandTokens tokens length written labelless labels, fails]
    rfl
  refine ⟨_, .operand s.mnemonic found length e fails _ unfit, ?_⟩
  rw [outcome, Statement.outcome, instr, span]
  rfl

end Direct

section Agree

variable {mnemonic : String} {operands : List Operand} (written : ∀ o ∈ operands, o.Written)
  (labelless : ∀ m, Mnemonic.find? mnemonic = some m → operands.length = m.arity → Labelless m.kinds operands)

include written labelless

theorem bodyOutcome_of_encoded {bytes : List UInt8} (encoded : encodeByName mnemonic operands = .ok bytes)
    (labels : LabelTable) :
    ∃ e : Emission, SourceLine.bodyOutcome ⟨1, statementTokens mnemonic operands⟩ labels 0 = .emits e ∧
      e.line = 1 ∧ e.offset = 0 ∧ e.instr.encode = bytes ∧ e.unresolved labels = [] := by
  unfold encodeByName at encoded
  split at encoded
  next => cases encoded
  next m found =>
    split at encoded
    next i made =>
      cases encoded
      have length : operands.length = m.arity := by
        by_contra wrong
        cases made.symm.trans (Mnemonic.instr_of_arity wrong)
      obtain ⟨e, emits, line, offset, rfl, closed⟩ :=
        bodyOutcome_of_instr found length written (labelless m found length) made labels
      exact ⟨e, emits, line, offset, rfl, closed⟩
    next => cases encoded

theorem bodyOutcome_of_refused {error : AsmError} (refused : encodeByName mnemonic operands = .error error)
    (labels : LabelTable) :
    ∃ span, Blames mnemonic operands span ∧
      SourceLine.bodyOutcome ⟨1, statementTokens mnemonic operands⟩ labels 0 = .fails ⟨⟨span, error⟩, 1⟩ := by
  unfold encodeByName at refused
  split at refused
  next missing =>
    cases refused
    refine ⟨_, .unknown missing, ?_⟩
    rw [bodyOutcome_statementTokens, ofTokens_statementTokens, missing]
  next m found =>
    split at refused
    next => cases refused
    next e fails =>
      cases refused
      by_cases length : operands.length = m.arity
      · exact bodyOutcome_of_unfit found length written (labelless m found length) fails labels
      · cases fails.symm.trans (Mnemonic.instr_of_arity length)
        refine ⟨_, .arity m found length, ?_⟩
        have tokens : (operandTokens (byteLength mnemonic.toList + 1) operands).length ≠ m.arity := by
          rwa [length_operandTokens]
        rw [bodyOutcome_statementTokens, ofTokens_statementTokens, found]
        dsimp only
        rw [dif_neg tokens]

end Agree

/-- The encoder and the assembler agree on the line that a name and operands are written as: on its bytes, and
otherwise on the error, which the assembler reports at what is to blame. -/
theorem assemble_statementText {mnemonic : String} {operands : List Operand} (ident : IsWord .ident mnemonic.toList)
    (written : ∀ o ∈ operands, o.Written)
    (labelless : ∀ m, Mnemonic.find? mnemonic = some m → operands.length = m.arity → Labelless m.kinds operands) :
    let a := assemble (statementText mnemonic operands)
    (a.isOk = true ↔ ∃ bytes, encodeByName mnemonic operands = .ok bytes) ∧
      (∀ bytes, encodeByName mnemonic operands = .ok bytes →
        (a.listing.map fun e => (e.line, e.offset, e.size)) = [(1, 0, bytes.length)] ∧
          a.image.toList = zeroPadded bytes) ∧
      ∀ error, encodeByName mnemonic operands = .error error →
        a.listing = [] ∧ ∃ span, Blames mnemonic operands span ∧ a.diagnostics = [⟨⟨span, error⟩, 1⟩] := by
  intro a
  have lines := sourceLines_statementText ident written
  obtain ⟨diagnostics, listing, image⟩ := assemble_line lines (label?_statementTokens mnemonic operands)
  have accepted (bytes : List UInt8) (encoded : encodeByName mnemonic operands = .ok bytes) :
      a.diagnostics = [] ∧ (a.listing.map fun e => (e.line, e.offset, e.size)) = [(1, 0, bytes.length)] ∧
        a.image.toList = zeroPadded bytes := by
    obtain ⟨e, emits, line, offset, rfl, closed⟩ := bodyOutcome_of_encoded written labelless encoded a.labels
    rw [emits] at diagnostics listing image
    refine ⟨diagnostics.trans closed, ?_, image⟩
    rw [show a.listing = [e.entry] from listing, List.map_singleton, Instr.length_encode, ← line, ← offset]
    rfl
  have rejected (error : AsmError) (refused : encodeByName mnemonic operands = .error error) :
      a.listing = [] ∧ ∃ span, Blames mnemonic operands span ∧ a.diagnostics = [⟨⟨span, error⟩, 1⟩] := by
    obtain ⟨span, blames, fails⟩ := bodyOutcome_of_refused written labelless refused a.labels
    rw [fails] at diagnostics listing
    exact ⟨listing, span, blames, diagnostics⟩
  refine ⟨?_, fun bytes encoded => (accepted bytes encoded).2, rejected⟩
  rw [Assembly.isOk, List.isEmpty_iff]
  constructor
  · intro silent
    cases result : encodeByName mnemonic operands with
    | ok bytes => exact ⟨bytes, rfl⟩
    | error error =>
      obtain ⟨-, span, -, reported⟩ := rejected error result
      rw [silent] at reported
      cases reported
  · rintro ⟨bytes, encoded⟩
    exact (accepted bytes encoded).1

/-- A second operand that is no register. -/
theorem assemble_statementText_number :
    let operands : List Operand := [.name "b", .value (-7)]
    let d : Diagnostic := ⟨⟨⟨7, 2⟩, .invalidOperand "mov" .register⟩, 1⟩
    statementText "Mov" operands = "Mov b, -7" ∧ IsWord .ident "Mov".toList ∧ (∀ o ∈ operands, o.Written) ∧
      (∀ m, Mnemonic.find? "Mov" = some m → operands.length = m.arity → Labelless m.kinds operands) ∧
        (assemble "Mov b, -7").diagnostics = [d] ∧ Blames "Mov" operands ⟨7, 2⟩ := by
  intro operands d
  have text : statementText "Mov" operands = "Mov b, -7" := by decide +kernel
  have ident : IsWord .ident "Mov".toList := .of_ident (by decide) (by decide)
  have written : ∀ o ∈ operands, o.Written := by
    rw [List.forall_mem_cons, List.forall_mem_singleton]
    exact ⟨.of_ident (by decide) (by decide), by decide, by decide⟩
  have labelless : ∀ m, Mnemonic.find? "Mov" = some m → operands.length = m.arity → Labelless m.kinds operands := by
    intro m found _
    have kinds : (Mnemonic.find? "Mov").map Mnemonic.kinds = some [.register, .register] := by decide +kernel
    rw [found] at kinds
    rw [Option.some.inj kinds, Labelless]
    simp [operands, OperandKind.isWord]
  have refused : encodeByName "Mov" operands = .error (.invalidOperand "mov" .register) := by decide +kernel
  have reported : (assemble "Mov b, -7").diagnostics = [d] := by
    rw [assemble_diagnostics_eq]
    decide +kernel
  obtain ⟨-, -, rejected⟩ := assemble_statementText ident written labelless
  obtain ⟨-, span, blames, diagnostics⟩ := rejected _ refused
  rw [text, reported] at diagnostics
  have here : (⟨7, 2⟩ : Span) = span := congrArg (fun e : Diagnostic => e.span) (List.cons.inj diagnostics).1
  exact ⟨text, ident, written, labelless, reported, here ▸ blames⟩

end I8080
