import I8080.Proofs.Cursor
import I8080.Proofs.LetterCase
import I8080.Proofs.Relabelling

namespace I8080

/-- The error with what it quotes in lower case, but for the names of labels. -/
def AsmError.fold : AsmError → AsmError
  | .unknownMnemonic name => .unknownMnemonic name.toLower
  | .unknownRegister mnemonic name expected => .unknownRegister mnemonic name.toLower expected
  | .malformedLiteral text => .malformedLiteral text.toLower
  | .unexpectedToken text => .unexpectedToken text.toLower
  | e => e

theorem AsmError.code_fold (e : AsmError) : e.fold.code = e.code := by
  cases e <;> rfl

/-- Two operands that differ in the case of letters only. -/
inductive Operand.Recased : Operand → Operand → Prop
  | name {s t : String} (lower : s.toLower = t.toLower) : Recased (.name s) (.name t)
  | value (n : Int) : Recased (.value n) (.value n)

/-- The view that looks at the places of errors and at what they are about, whatever its case. -/
def View.recase : View where
  Place := Span
  Remark := Span × AsmError
  rename := id
  injective := Function.injective_id
  place := id
  remark := fun c => (c.span, c.error.fold)
  remark_eq := by
    rintro s _ rfl e
    rfl

namespace View

theorem complains_of_fold {span : Span} {e d : AsmError} (h : e.fold = d.fold) :
    recase.Complains ⟨span, e⟩ ⟨span, d⟩ := by
  have renamed : e.rename recase.rename = e := e.rename_id
  refine Prod.ext rfl ?_
  change (e.rename recase.rename).fold = d.fold
  rw [renamed, h]

theorem read_of_recased (mnemonic : String) (kind : OperandKind) {a b : Operand} (h : a.Recased b) :
    Alike (fun e d => AsmError.fold e = AsmError.fold d) Eq (kind.read mnemonic a) (kind.read mnemonic b) := by
  cases h with
  | value n =>
    cases kind.read mnemonic (.value n) with
    | error e => exact .error rfl
    | ok value => exact .ok rfl
  | @name s t lower =>
    cases kind with
    | register =>
      simp only [OperandKind.read, Loc.ofName?, lower]
      split
      next => exact .ok rfl
      next => exact .error (congrArg (AsmError.unknownRegister mnemonic · .register) lower)
    | pair allowed =>
      simp only [OperandKind.read, RegPair.ofName?, lower]
      split
      next => exact .ok rfl
      next => exact .error (congrArg (AsmError.unknownRegister mnemonic · (.pair allowed)) lower)
    | byte | word | address | vector => exact .error rfl

theorem readAll_of_recased (mnemonic : String) {kinds : List OperandKind} {as bs : List Operand}
    (h : List.Forall₂ Operand.Recased as bs) (start : Nat) (length : as.length = kinds.length)
    (length' : bs.length = kinds.length) :
    Alike recase.Blames Eq (OperandKind.readAll mnemonic start kinds as length)
      (OperandKind.readAll mnemonic start kinds bs length') := by
  induction h generalizing kinds start with
  | nil =>
    cases kinds with
    | nil => exact .ok rfl
    | cons => cases length
  | cons first _ ih =>
    cases kinds with
    | nil => cases length
    | cons kind kinds =>
      have read := read_of_recased mnemonic kind first
      unfold OperandKind.readAll
      generalize kind.read mnemonic _ = value at read
      generalize kind.read mnemonic _ = value' at read
      cases read with
      | error same => exact .error ⟨rfl, fun _ => complains_of_fold same⟩
      | ok same =>
        subst same
        exact (ih (start + 1) _ _).map fun _ _ same => congrArg _ same

theorem instr_of_recased (m : Mnemonic) {as bs : List Operand} (h : List.Forall₂ Operand.Recased as bs) :
    Alike recase.Blames Eq (m.instr as) (m.instr bs) := by
  have same := h.length_eq
  unfold Mnemonic.instr
  by_cases length : as.length = m.arity
  · have length' : bs.length = m.arity := same ▸ length
    have read := readAll_of_recased m.name h 0 length length'
    rw [dif_pos length, dif_pos length']
    generalize OperandKind.readAll m.name 0 m.kinds as length = values at read
    generalize OperandKind.readAll m.name 0 m.kinds bs length' = values' at read
    cases read with
    | error blames => exact .error blames
    | @ok values _ equal =>
      subst equal
      dsimp only
      cases m.build values with
      | error unbuilt => exact .error ⟨rfl, fun _ => complains_of_fold rfl⟩
      | ok i => exact .ok rfl
  · rw [dif_neg length, dif_neg (same ▸ length), same]
    exact .error ⟨rfl, fun _ => complains_of_fold rfl⟩

end View

namespace Token.Recased

variable {t u : Token}

theorem toLower_name (h : t.Recased u) : t.name.toLower = u.name.toLower :=
  SameLetters.toLower_eq h.text.symm

theorem strays (h : t.Recased u) : View.recase.Strays t u where
  kind := h.kind
  unexpected _ := by
    rw [h.span_eq]
    exact View.complains_of_fold (congrArg AsmError.unexpectedToken h.toLower_name)

/-- An operand in another case reads the same, unless it is a label. -/
theorem operands (h : t.Recased u) {kind : OperandKind} (operand : t.isOperand = true)
    (name : t.kind = .ident → kind.isWord = true → u.text = t.text) :
    View.recase.Operands Operand.Recased (kind, t) (kind, u) := by
  refine View.operands_of_tokens operand h.kind h.span_eq.symm .value (fun _ => ?_) ?_ fun _ _ => .name h.toLower_name
  · rw [h.span_eq]
    exact ⟨SameLetters.parse?_eq h.text, View.complains_of_fold (congrArg AsmError.malformedLiteral h.toLower_name)⟩
  · exact fun ident word => congrArg String.ofList (name ident word)

end Token.Recased

/-- A token in another case, or as it was if it is one of these. -/
def Token.RecasedBut (names : List Token) (t u : Token) : Prop :=
  t.Recased u ∧ (t ∈ names → u.text = t.text)

namespace View

theorem reads_of_recased {body body' : List Token}
    (recased : List.Forall₂ (Token.RecasedBut (wordTokens body)) body body') : recase.Reads body body' := by
  cases recased with
  | nil => exact .bare
  | @cons head head' operands operands' first rest =>
    have spans : operands.map Token.span = operands'.map Token.span := by
      rw [← List.forall₂_eq_eq_eq, List.forall₂_map_left_iff, List.forall₂_map_right_iff]
      exact rest.imp fun _ _ recased => recased.1.span_eq.symm
    have span : statementSpan head operands = statementSpan head' operands' := by
      have joined (head : Token) (operands : List Token) :
          statementSpan head operands = (operands.map Token.span).foldl Span.join head.span := List.foldl_map.symm
      rw [joined, joined, first.1.span_eq, spans]
    refine .stated _ _ _ _ (ofTokens_of_strays first.1.strays (rest.imp fun _ _ recased => recased.1.strays) ?_ ?_ span ?_)
    · rw [Mnemonic.find?, Mnemonic.find?, first.1.toLower_name]
    · rw [first.1.span_eq]
      exact complains_of_fold (congrArg AsmError.unknownMnemonic first.1.toLower_name)
    · intro m arity arity' known clean
      refine states_of_operands Operand.Recased rfl span spans ?_ fun _ _ => instr_of_recased m
      refine forall₂_zip rest fun kind t u mem recased => ?_
      exact recased.1.operands (clean t (List.of_mem_zip mem).2) fun ident word =>
        recased.2 (mem_wordTokens.mpr ⟨m, known, arity, kind, mem, word, ident⟩)

theorem lines_of_recased {line other : SourceLine} (number : line.number = other.number)
    (recased : List.Forall₂ (Token.RecasedBut line.labelTokens) line.tokens other.tokens) :
    recase.Lines line other := by
  have label := SourceLine.label?_related (fun _ _ h => h.1.kind) recased
  have body := SourceLine.body_related (fun _ _ h => h.1.kind) recased
  refine ⟨number, ?_, reads_of_recased (body.imp fun t u recased => ⟨recased.1, fun word => ?_⟩)⟩
  · generalize hl : line.label? = name at label
    generalize other.label? = name' at label
    cases label with
    | none => rfl
    | @some t u same =>
      have text := same.2 (List.mem_append_left _ (Option.mem_toList.mpr hl))
      have shown : recase.label recase.rename t = recase.label id u :=
        Prod.ext (congrArg String.ofList text.symm) same.1.span_eq.symm
      exact congrArg some shown
  · exact recased.2 (List.mem_append_right _ word)

end View

/-- A text that differs from a source in the case of letters only, and not in the names of the labels. -/
structure Recased (source other : String) : Prop where
  letters : SameLetters other.toList source.toList
  labels : ∀ t ∈ (sourceLines source.toList).flatMap SourceLine.labelTokens,
    slice? other.toList t.span.start t.span.stop = some t.text

theorem sourceLines_recased {source other : String} (h : Recased source other) :
    List.Forall₂ View.recase.Lines (sourceLines source.toList) (sourceLines other.toList) := by
  let names := (sourceLines source.toList).flatMap SourceLine.labelTokens
  have tokens := tokenizeFrom_recased 0 source.toList other.toList h.letters
  have recased : List.Forall₂ (Token.RecasedBut names) (tokenize source.toList) (tokenize other.toList) := by
    have placed := ((List.forall₂_and_left _ _).mpr ⟨fun _ hu => text_of_tokenize hu, tokens.flip⟩).flip
    refine placed.imp fun t u ⟨text, recased⟩ => ⟨recased, fun name => ?_⟩
    have kept := h.labels t name
    rw [Mark.text?, Token.mark, recased.span_eq, kept] at text
    exact (Option.some.inj text).symm
  refine (sourceLines_related (fun _ _ _ h => h.1.kind) (fun _ _ _ _ h names => ⟨h.1, fun name => h.2 (names.mpr name)⟩)
    recased).imp ?_
  rintro line other ⟨-, number, tokens⟩
  exact View.lines_of_recased number tokens

/-- The case of letters matters only in the names of labels: in any other case a text assembles to the same, down to
the place and the kind of every error. -/
theorem assemble_recased {source other : String} (h : Recased source other) :
    let before := assemble source
    let after := assemble other
    after.image = before.image ∧ after.labels = before.labels ∧ after.listing = before.listing ∧
      (after.diagnostics.map fun d => (d.line, d.span, d.error.code)) =
        (before.diagnostics.map fun d => (d.line, d.span, d.error.code)) ∧
      (after.diagnostics.map fun d => (d.line, d.span, d.error.fold)) =
        before.diagnostics.map fun d => (d.line, d.span, d.error.fold) := by
  intro before after
  obtain ⟨image, labels, listing, diagnostics⟩ := View.assemble_of_unrenamed rfl (sourceLines_recased h)
  refine ⟨image.symm, labels.symm, ?_, ?_, diagnostics.symm⟩
  · have whole : Function.Injective View.recase.entry := by
      rintro ⟨⟩ ⟨⟩ same
      cases same
      rfl
    exact (whole.list_map listing).symm
  · have kinds := congrArg (List.map fun shown => (shown.1, shown.2.1, shown.2.2.code)) diagnostics.symm
    rw [List.map_map, List.map_map] at kinds
    simpa only [Function.comp_def, AsmError.code_fold, View.diagnostic, View.recase] using kinds

/-- Letters of mnemonics, of registers and of numbers change their case, on a line that fails as well. -/
theorem assemble_recased_upper :
    let source := "Loop: mvi a, 0ffh\njmp Loop\nmov b, x1"
    let other := "Loop: MVI A, 0FFH\nJmp Loop\nMOV B, X1"
    Recased source other ∧ (assemble other).image = (assemble source).image ∧
      (assemble other).labels.toList = [("Loop", 0x800)] ∧
      ((assemble other).diagnostics.map fun d => (d.line, d.span, d.error.code)) = [(3, ⟨34, 2⟩, "asm::register")] := by
  intro source other
  have recased : Recased source other := ⟨by decide +kernel, by decide +kernel⟩
  have known : (assemble source).labels.toList = [("Loop", 0x800)] := by decide +kernel
  have fault : ((assemble source).diagnostics.map fun d => (d.line, d.span, d.error.code)) =
      [(3, ⟨34, 2⟩, "asm::register")] := by decide +kernel
  obtain ⟨image, labels, -, diagnostics, -⟩ := assemble_recased recased
  exact ⟨recased, image, (congrArg LabelTable.toList labels).trans known, diagnostics.trans fault⟩

example : ((assemble "jmp end\nEnd: hlt").diagnostics.map fun d => d.error) = [.unresolvedLabel "end"] := by
  decide +kernel

end I8080
