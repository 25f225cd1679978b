import I8080.Proofs.Account
import I8080.Proofs.Place

namespace I8080

/-- What an error says of the text that it blames, where this text stands on a line. -/
def AsmError.Blames (line : SourceLine) (s : Span) (text : List Char) : AsmError → Prop
  | .unexpectedToken name | .malformedLiteral name | .unknownMnemonic name | .unknownRegister _ name _
  | .duplicateLabel name | .unresolvedLabel name => name = String.ofList text
  | .literalOutOfRange value _ =>
    ∃ t ∈ line.body, t.kind = .number ∧ t.span = s ∧ t.text = text ∧ Literal.parse? text = some value
  | .invalidOperand .. => ∃ t ∈ line.body, t.isOperand = true ∧ t.span = s ∧ t.text = text
  | .wrongArity mnemonic expected found => ∃ m head operands, s.IsStatement line m head operands ∧
      m.name = mnemonic ∧ m.arity = expected ∧ operands.length = found
  | .programTooLarge _ => ∃ m head operands, s.IsStatement line m head operands ∧ operands.length = m.arity

/-- A complaint about a line points at one of its tokens, or at its statement. -/
inductive Complaint.PointsInto (line : SourceLine) : Complaint → Prop
  | token {t : Token} {e : AsmError} (mem : t ∈ line.tokens) (blames : e.Blames line t.span t.text) :
      PointsInto line ⟨t.span, e⟩
  | statement {s : Span} {m : Mnemonic} {head : Token} {operands : List Token} {e : AsmError}
      (stated : s.IsStatement line m head operands) (blames : ∀ text, e.Blames line s text) : PointsInto line ⟨s, e⟩

section Statement

variable {line : SourceLine} {head : Token} {operands : List Token}

theorem statementSpan_isStatement (ordered : line.Ordered) (body : line.body = head :: operands)
    (ident : head.kind = .ident) (plain : ∀ t ∈ operands, t.isOperand = true) {m : Mnemonic}
    (known : Mnemonic.find? head.name = some m) :
    (statementSpan head operands).IsStatement line m head operands := by
  have inside := List.Pairwise.sublist line.body_sublist ordered
  rw [body] at inside
  obtain ⟨start, stop⟩ := foldl_join inside rfl
  exact ⟨body, ident, known, plain, start, stop⟩

theorem Statement.Unread.points (ordered : line.Ordered) (body : line.body = head :: operands) {c : Complaint}
    (h : Statement.Unread head operands c) : c.PointsInto line := by
  have mem : ∀ t ∈ head :: operands, t ∈ line.tokens := fun t ht => line.body_sublist.mem (body ▸ ht)
  have first := mem head List.mem_cons_self
  cases h with
  | head | unknown => exact .token first rfl
  | operand later => exact .token (mem _ (List.mem_cons_of_mem _ later)) rfl
  | arity ident plain known =>
    have stated := statementSpan_isStatement ordered body ident plain known
    exact .statement stated fun text => ⟨_, _, _, stated, rfl, rfl, rfl⟩

/-- What a token is read as in a place of some kind. -/
inductive Token.StandsFor (labels : LabelTable) (kind : OperandKind) (t : Token) : Operand → Prop
  | number (n : Int) (number : t.kind = .number) (parsed : Literal.parse? t.text = some n) :
      StandsFor labels kind t (.value n)
  | label (number : t.kind ≠ .number) (word : kind.isWord = true) :
      StandsFor labels kind t (.value (labels.address t.name).toNat)
  | name (number : t.kind ≠ .number) (wordless : kind.isWord = false) : StandsFor labels kind t (.name t.name)

theorem Token.standsFor_of_operand {t : Token} {labels : LabelTable} {kind : OperandKind} {operand : Operand}
    (h : t.operand labels kind = .ok operand) : t.StandsFor labels kind operand := by
  by_cases number : t.kind = .number
  · rw [Token.operand, if_pos number] at h
    split at h
    next n parsed =>
      cases h
      exact .number n number parsed
    next => cases h
  · by_cases word : kind.isWord = true
    · cases (Token.operand_label word number labels).symm.trans h
      exact .label number word
    · rw [Token.operand, if_neg number, if_neg word] at h
      cases h
      exact .name number (by simpa using word)

/-- The address of a label fits every place that takes one. -/
theorem OperandKind.read_of_isWord {kind : OperandKind} (word : kind.isWord = true) (mnemonic : String) (w : UInt16)
    (e : AsmError) : kind.read mnemonic (.value w.toNat) ≠ .error e := by
  cases kind with
  | word => simp [OperandKind.read_word]
  | address => simp [OperandKind.read_address]
  | register | pair | byte | vector => cases word

/-- What does not fit a place is what the token there stands for. -/
theorem Token.operand_points {t : Token} (mem : t ∈ line.body) (plain : t.isOperand = true) {labels : LabelTable}
    {kind : OperandKind} {o : Operand} (read : t.operand labels kind = .ok o) {mnemonic : String} {e : AsmError}
    (unfit : kind.read mnemonic o = .error e) : e.Blames line t.span t.text := by
  cases Token.standsFor_of_operand read with
  | number n number parsed =>
    cases OperandKind.read_error unfit with
    | shape => exact ⟨t, mem, plain, rfl, rfl⟩
    | range => exact ⟨t, mem, number, rfl, rfl, parsed⟩
  | label number word => exact absurd unfit (OperandKind.read_of_isWord word mnemonic _ e)
  | name =>
    cases OperandKind.read_error unfit with
    | shape => exact ⟨t, mem, plain, rfl, rfl⟩
    | unknown => rfl

theorem Statement.operand_of_readOperands {s : Statement} {labels : LabelTable} {operands : List Operand}
    (h : s.readOperands labels = .ok operands) {k : Nat} {kind : OperandKind} {o : Operand}
    (found : (s.mnemonic.kinds.zip operands)[k]? = some (kind, o)) :
    ∃ t, s.operands[k]? = some t ∧ t.operand labels kind = .ok o := by
  obtain ⟨at_kind, at_operand⟩ := List.getElem?_zip_eq_some.mp found
  obtain ⟨inside, rfl⟩ := List.getElem?_eq_some_iff.mp at_operand
  obtain ⟨inside', rfl⟩ := List.getElem?_eq_some_iff.mp at_kind
  obtain ⟨length, each⟩ := List.forall₂_iff_get.mp (forall₂_of_mapM h)
  have paired : k < (s.mnemonic.kinds.zip s.operands).length := length ▸ inside
  have within : k < s.operands.length := s.length_operands ▸ inside'
  refine ⟨s.operands[k], List.getElem?_eq_getElem within, ?_⟩
  simpa using each k paired inside

theorem Statement.Unmade.points {s : Statement} (known : s.mnemonic ∈ Mnemonic.table)
    (inside : ∀ t ∈ s.operands, t ∈ line.body) (plain : ∀ t ∈ s.operands, t.isOperand = true) {labels : LabelTable}
    {c : Complaint} (h : s.Unmade labels c) : c.PointsInto line := by
  cases h with
  | token mem unread =>
    rw [Token.operand_error unread]
    exact .token (line.body_sublist.mem (inside _ (List.of_mem_zip mem).2)) rfl
  | @operand operands e read unfit =>
    have length : operands.length = s.mnemonic.arity := by
      rw [length_of_mapM read, List.length_zip, s.length_operands]
      exact Nat.min_self _
    have place := s.length_operands ▸ Mnemonic.operand_lt known length unfit
    have at_place := List.getElem?_eq_getElem place
    have mem := List.getElem_mem place
    have blames : e.error.Blames line s.operands[e.operand].span s.operands[e.operand].text := by
      rcases Mnemonic.instr_eq_error length unfit with unread | ⟨values, unbuilt, -, failed, rfl⟩
      · obtain ⟨k, kind, o, at_k, found, misfit, -⟩ := OperandKind.readAll_error unread
        rw [Nat.zero_add] at at_k
        obtain ⟨t, there, stands⟩ := Statement.operand_of_readOperands read (at_k ▸ found)
        cases at_place.symm.trans there
        exact Token.operand_points (inside _ mem) (plain _ mem) stands misfit
      · exact ⟨_, inside _ mem, plain _ mem, rfl, rfl⟩
    -- There is such an operand, so the span is its own and not that of the statement.
    rw [at_place]
    exact .token (line.body_sublist.mem (inside _ mem)) blames

end Statement

theorem SourceLine.Fails.points {line : SourceLine} (ordered : line.Ordered) {labels : LabelTable}
    {taken : List String} {offset : Nat} {c : Complaint} (h : line.Fails labels taken offset c) :
    c.PointsInto line := by
  cases h with
  | label label => exact .token (SourceLine.label?_mem label) rfl
  | tokens body unread => exact (Statement.unread_of_ofTokens unread).points ordered body
  | operands body read unmade =>
    obtain ⟨-, plain, -, -, rfl⟩ := Statement.ofTokens_eq_ok read
    refine (Statement.unmade_of_instr unmade).points (Statement.mnemonic_mem_table read) (fun t ht => ?_) plain
    rw [body]
    exact List.mem_cons_of_mem _ ht
  | room body read =>
    obtain ⟨ident, plain, known, rfl, rfl⟩ := Statement.ofTokens_eq_ok read
    have stated := statementSpan_isStatement ordered body ident plain known
    exact .statement stated fun text => ⟨_, _, _, stated, Statement.length_operands _⟩

theorem Statement.references_subset (s : Statement) : s.references ⊆ s.operands := by
  intro t ht
  obtain ⟨⟨kind, u⟩, mem, rfl⟩ := List.mem_map.mp ht
  exact (List.of_mem_zip (List.mem_of_mem_filter mem)).2

/-- All that is reported about a line points into it, also by the second pass. -/
theorem SourceLine.diagnostics_point {line : SourceLine} (ordered : line.Ordered) {labels : LabelTable}
    {taken : List String} {offset : Nat} {d : Diagnostic}
    (h : d ∈ (line.outcome labels taken offset).diagnostics labels) : d.toComplaint.PointsInto line := by
  rcases Outcome.mem_diagnostics_iff.mp h with fails | ⟨e, emits, waiting⟩
  · exact (SourceLine.fails_of_outcome fails).2.points ordered
  · obtain ⟨t, unknown, rfl⟩ := List.mem_map.mp waiting
    obtain ⟨head, operands, s, body, read, outcome⟩ := SourceLine.outcome_emits emits
    obtain ⟨-, -, -, -, tail⟩ := Statement.ofTokens_eq_ok read
    obtain ⟨-, he, -⟩ := Statement.outcome_emits outcome
    have mem : t ∈ e.statement.operands := e.statement.references_subset (List.mem_of_mem_filter unknown)
    rw [he, tail] at mem
    exact .token (line.body_sublist.mem (body ▸ List.mem_cons_of_mem head mem)) rfl

theorem SourceLine.entries_point {line : SourceLine} (ordered : line.Ordered) {labels : LabelTable}
    {taken : List String} {offset : Nat} {e : Entry} (h : e ∈ (line.outcome labels taken offset).entries) :
    ∃ m head operands, e.span.IsStatement line m head operands ∧ operands.length = m.arity := by
  obtain ⟨emission, emits, rfl⟩ := Outcome.mem_entries_iff.mp h
  obtain ⟨head, operands, s, body, read, outcome⟩ := SourceLine.outcome_emits emits
  obtain ⟨ident, plain, known, rfl, rfl⟩ := Statement.ofTokens_eq_ok read
  obtain ⟨-, he, -⟩ := Statement.outcome_emits outcome
  rw [he]
  exact ⟨_, _, _, statementSpan_isStatement ordered body ident plain known, s.length_operands⟩

theorem Complaint.PointsInto.covers {source : List Char} {line : SourceLine} (h : line ∈ sourceLines source)
    {c : Complaint} (points : c.PointsInto line) :
    ∃ text, c.span.Covers source line.number text ∧ c.error.Blames line c.span text := by
  cases points with
  | token mem blames => exact ⟨_, covers_token h mem, blames⟩
  | statement stated blames =>
    obtain ⟨text, covers⟩ := stated.covers h
    exact ⟨text, covers, blames text⟩

/-- Every diagnostic and every listing entry of an assembly points at the text of its line that it is about. -/
theorem assemble_points_at_source (source : String) :
    (∀ d ∈ (assemble source).diagnostics, ∃ line ∈ sourceLines source.toList, line.number = d.line ∧
        ∃ text, d.span.Covers source.toList d.line text ∧ d.error.Blames line d.span text) ∧
      ∀ e ∈ (assemble source).listing, ∃ line ∈ sourceLines source.toList, line.number = e.line ∧
        ∃ text, e.span.Covers source.toList e.line text ∧
          ∃ m head operands, e.span.IsStatement line m head operands ∧ operands.length = m.arity := by
  constructor
  · intro d hd
    rw [assemble_diagnostics_eq] at hd
    obtain ⟨o, listed, hd⟩ := List.mem_flatMap.mp hd
    obtain ⟨line, mem, taken, offset, rfl⟩ := exists_of_mem_outcomes listed
    have points := SourceLine.diagnostics_point (ordered_of_sourceLines mem) hd
    have number := SourceLine.line_of_diagnostics hd
    exact ⟨line, mem, number.symm, number ▸ points.covers mem⟩
  · intro e he
    rw [assemble_listing_eq] at he
    obtain ⟨o, listed, he⟩ := List.mem_flatMap.mp he
    obtain ⟨line, mem, taken, offset, rfl⟩ := exists_of_mem_outcomes listed
    obtain ⟨m, head, operands, stated, length⟩ := SourceLine.entries_point (ordered_of_sourceLines mem) he
    obtain ⟨text, covers⟩ := stated.covers mem
    have number := SourceLine.line_of_entries he
    exact ⟨line, mem, number.symm, text, number ▸ covers, m, head, operands, stated, length⟩

/-- A label that is never defined, behind one that is, and a number that is too large, where characters and bytes
are no longer in step. -/
theorem assemble_points_at_source_open :
    let source := ";é\nx: lxi H , y ;ß\n mvi a,0x1ff"
    let unresolved : Diagnostic := ⟨⟨⟨15, 1⟩, .unresolvedLabel "y"⟩, 2⟩
    let large : Diagnostic := ⟨⟨⟨28, 5⟩, .literalOutOfRange 511 8⟩, 3⟩
    let entry : Entry := ⟨2, ⟨7, 9⟩, 0, 3⟩
    (assemble source).diagnostics = [unresolved, large] ∧ (assemble source).listing = [entry] ∧
      unresolved.span.Covers source.toList 2 ['y'] ∧ large.span.Covers source.toList 3 "0x1ff".toList ∧
      entry.span.Covers source.toList 2 "lxi H , y".toList := by
  intro source unresolved large entry
  have reported : (assemble source).diagnostics = [unresolved, large] := by
    rw [assemble_diagnostics_eq]
    decide +kernel
  have listed : (assemble source).listing = [entry] := by
    rw [assemble_listing_eq]
    decide +kernel
  obtain ⟨diagnostics, entries⟩ := assemble_points_at_source source
  obtain ⟨-, -, -, text, first, -⟩ := diagnostics unresolved (by simp [reported])
  obtain ⟨-, -, -, text, second, -⟩ := diagnostics large (by simp [reported])
  obtain ⟨-, -, -, text, third, -⟩ := entries entry (by simp [listed])
  cases first.eq_text (by decide +kernel : slice? source.toList 15 16 = some ['y'])
  cases second.eq_text (by decide +kernel : slice? source.toList 28 33 = some "0x1ff".toList)
  cases third.eq_text (by decide +kernel : slice? source.toList 7 16 = some "lxi H , y".toList)
  exact ⟨reported, listed, first, second, third⟩

end I8080
