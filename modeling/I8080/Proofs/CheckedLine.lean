import I8080.Proofs.Checked
import I8080.Proofs.Diagnostic
import I8080.Proofs.WordStep

namespace I8080

open Checked

namespace Checked

variable {α β : Type}

theorem gives_need {x : Option α} {a : α} (h : x = some a) : (need x).Gives (.ok a) := by
  rw [h]
  rfl

theorem gives_pure (a : α) : (pure a : Checked α).Gives (.ok a) :=
  rfl

theorem gives_throw (c : Complaint) : (throw c : Checked α).Gives (.error c) :=
  rfl

theorem Gives.bind_ok {x : Checked α} {a : α} {f : α → Checked β} {result : Except Complaint β}
    (h : x.Gives (.ok a)) (next : (f a).Gives result) : (x >>= f).Gives result := by
  change ExceptT.run (x >>= f) = some result
  rw [ExceptT.run_bind, h]
  exact next

theorem Gives.bind_error {x : Checked α} {c : Complaint} (h : x.Gives (.error c)) (f : α → Checked β) :
    (x >>= f).Gives (.error c) := by
  change ExceptT.run (x >>= f) = some (.error c)
  rw [ExceptT.run_bind, h]
  rfl

theorem bind_need {x : Option α} {a : α} {f : α → Checked β} {result : Except Complaint β} (h : x = some a)
    (next : (f a).Gives result) : (need x >>= f).Gives result :=
  (gives_need h).bind_ok next

theorem gives_mapM {f : α → Checked β} {g : α → Except Complaint β} {as : List α}
    (h : ∀ a ∈ as, (f a).Gives (g a)) : (as.mapM f).Gives (as.mapM g) := by
  induction as with
  | nil => rfl
  | cons a as ih =>
    have first := h a List.mem_cons_self
    have rest := ih fun b hb => h b (List.mem_cons_of_mem a hb)
    rw [List.mapM_cons, List.mapM_cons]
    cases ha : g a with
    | error c => exact (ha ▸ first).bind_error _
    | ok b =>
      refine (ha ▸ first).bind_ok ?_
      cases hs : as.mapM g with
      | error c => exact (hs ▸ rest).bind_error _
      | ok bs => exact (hs ▸ rest).bind_ok (gives_pure _)

end Checked

theorem word?_of_le {n : Nat} (h : n ≤ windowSize) : word? n = some (UInt16.ofNat n) :=
  if_pos (Nat.lt_of_le_of_lt h (by decide))

theorem Span.join?_eq (s t : Span) : s.join? t = some (s.join t) := by
  have order : min s.start t.start ≤ max s.stop t.stop := by
    simp only [Span.stop]
    omega
  rw [Span.join?, sub?_of_le order]
  rfl

theorem foldlM_join? (span : Span) (ts : List Token) :
    (ts.map Token.mark).foldlM (fun span t => span.join? t.span) span =
      some (ts.foldl (fun span t => span.join t.span) span) := by
  induction ts generalizing span with
  | nil => rfl
  | cons t ts ih =>
    rw [List.map_cons, List.foldlM_cons, Span.join?_eq]
    exact ih (span.join t.span)

theorem statementSpan_checked (head : Token) (operands : List Token) :
    ((head :: operands).map Token.mark).foldlM (fun span t => span.join? t.span) head.mark.span =
      some (statementSpan head operands) := by
  have own : head.span.join head.span = head.span := by simp [Span.join, Span.stop]
  rw [foldlM_join?]
  change some (operands.foldl _ (head.span.join head.span)) = _
  rw [own]
  rfl

theorem toInt_neg_ofNat {k : Nat} (h : k ≤ 0x7FFFFFFFFFFFFFFF) : (-Int64.ofNat k).toInt = -(k : Int) := by
  have value : (Int64.ofNat k).toInt = k := Int64.toInt_ofNat_of_lt (by omega)
  rw [Int64.toInt_neg, value]
  exact Int.bmod_eq_of_le (by omega) (by omega)

theorem negate?_ofNat {k : Nat} (h : k ≤ 0x7FFFFFFFFFFFFFFF) : negate? (Int64.ofNat k) = some (-Int64.ofNat k) := by
  refine if_neg ?_
  intro least
  have value : (Int64.ofNat k).toInt = k := Int64.toInt_ofNat_of_lt (by omega)
  rw [least, Int64.toInt_minValue] at value
  omega

/-- Neither the value of a literal nor its negative leaves the 64 bits. -/
theorem Literal.parse64?_eq (cs : List Char) :
    ∃ n, Literal.parse64? cs = some n ∧ n.map Int64.toInt = Literal.parse? cs := by
  have magnitude : ∀ digits : List Char, Literal.magnitude64? digits = none ∧
        (Literal.magnitude? (digits.map Char.toLower)).filter (· ≤ 0x7FFFFFFFFFFFFFFF) = none ∨
      ∃ k ≤ 0x7FFFFFFFFFFFFFFF, Literal.magnitude64? digits = some (Int64.ofNat k) ∧
        (Literal.magnitude? (digits.map Char.toLower)).filter (· ≤ 0x7FFFFFFFFFFFFFFF) = some k := by
    intro digits
    unfold Literal.magnitude64?
    cases h : (Literal.magnitude? (digits.map Char.toLower)).filter (· ≤ 0x7FFFFFFFFFFFFFFF) with
    | none => exact .inl ⟨rfl, rfl⟩
    | some k => exact .inr ⟨k, of_decide_eq_true (Option.filter_eq_some_iff.mp h).2, rfl, rfl⟩
  unfold Literal.parse64? Literal.parse?
  split
  next digits =>
    rcases magnitude digits with ⟨none64, none⟩ | ⟨k, small, some64, some⟩
    · simp only [none64, none]
      exact ⟨_, rfl, rfl⟩
    · simp only [some64, some, negate?_ofNat small]
      exact ⟨_, rfl, congrArg _ (toInt_neg_ofNat small)⟩
  next digits h =>
    rcases magnitude cs with ⟨none64, none⟩ | ⟨k, small, some64, some⟩
    · simp only [none64, none]
      exact ⟨_, rfl, rfl⟩
    · simp only [some64, some]
      exact ⟨_, rfl, congrArg _ (Int64.toInt_ofNat_of_lt (by omega))⟩

theorem OperandKind.readInto?_eq {places start : Nat} {kinds : List OperandKind} (mnemonic : String)
    (operands : List Operand) (length : operands.length = kinds.length) (room : start + kinds.length ≤ places) :
    OperandKind.readInto? places mnemonic start kinds operands =
      some (OperandKind.readAll mnemonic start kinds operands length) := by
  induction kinds generalizing start operands with
  | nil => rfl
  | cons kind kinds ih =>
    cases operands with
    | nil => cases length
    | cons operand operands =>
      rw [List.length_cons] at room
      have inside : start < places := by omega
      rw [OperandKind.readInto?, OperandKind.readAll]
      cases kind.read mnemonic operand with
      | error e => rfl
      | ok value =>
        dsimp only
        rw [if_pos inside, ih operands (Nat.succ.inj length) (by omega)]
        rfl

theorem Mnemonic.arity_le : ∀ m ∈ Mnemonic.table, m.arity ≤ 2 := by
  decide

theorem Mnemonic.instr?_eq {m : Mnemonic} (hm : m ∈ Mnemonic.table) (operands : List Operand) :
    m.instr? operands = some (m.instr operands) := by
  unfold Mnemonic.instr? Mnemonic.instr
  split
  next length =>
    rw [OperandKind.readInto?_eq m.name operands length (by simpa [Mnemonic.arity] using Mnemonic.arity_le m hm)]
    rfl
  next => rfl

theorem gives_readInstr {m : Mnemonic} (hm : m ∈ Mnemonic.table) {tokens : List Token} {operands : List Operand}
    (length : tokens.length = m.arity) (length' : operands.length = m.arity) (other : Span) :
    (readInstr m (tokens.map Token.mark) operands).Gives ((m.instr operands).mapError fun e =>
      ⟨(tokens[e.operand]?.map Token.span).getD other, e.error⟩) := by
  refine bind_need (Mnemonic.instr?_eq hm operands) ?_
  cases instr : m.instr operands with
  | ok i => exact gives_pure _
  | error e =>
    have inside : e.operand < tokens.length := length ▸ Mnemonic.operand_lt hm length' instr
    have there : (tokens.map Token.mark)[e.operand]? = some tokens[e.operand].mark := by simp [inside]
    have blamed : (tokens[e.operand]?.map Token.span).getD other = tokens[e.operand].mark.span := by
      simp [inside]
      rfl
    simp only [Except.mapError, blamed]
    exact bind_need there (gives_throw _)

theorem Token.reference?_eq_none {t : Token} {kind : OperandKind}
    (h : ¬(kind.isWord && decide (t.kind ≠ .number)) = true) (labels : LabelTable) :
    t.reference? labels kind = none := by
  refine if_neg fun waits => h ?_
  simp [waits.1, waits.2.1]

/-- For each operand of a statement, the reference to its label if that has no address. -/
def Statement.awaited (s : Statement) (labels : LabelTable) : List (Option Reference) :=
  (s.mnemonic.kinds.zip s.operands).map fun (kind, t) => t.reference? labels kind

theorem Statement.length_awaited_le (s : Statement) (labels : LabelTable) :
    ((s.awaited labels).filterMap id).length ≤ s.references.length := by
  have within : (s.awaited labels).filterMap id =
      ((s.mnemonic.kinds.zip s.operands).filter fun (kind, t) => kind.isWord && t.kind ≠ .number).filterMap
        fun (kind, t) => t.reference? labels kind := by
    rw [Statement.awaited, List.filterMap_map, List.filterMap_filter]
    refine List.filterMap_congr ?_
    rintro ⟨kind, t⟩ -
    by_cases waits : (kind.isWord && decide (t.kind ≠ .number)) = true
    · exact (if_pos waits).symm
    · exact (Token.reference?_eq_none waits labels).trans (if_neg waits).symm
  rw [within, Statement.references, List.length_map]
  exact List.length_filterMap_le _ _

/-- No statement refers to more than one label, so that the last reference is the first. -/
theorem Statement.last_awaited {s : Statement} (hm : s.mnemonic ∈ Mnemonic.table) {labels : LabelTable} {i : Instr}
    (made : s.instr labels = .ok i) : ((s.awaited labels).filterMap id).getLast? = s.reference? labels := by
  have single := Nat.le_trans (s.length_awaited_le labels) (Statement.length_references hm made)
  have first : ((s.awaited labels).filterMap id).head? = s.reference? labels := by
    rw [Statement.awaited, List.filterMap_map, List.head?_filterMap]
    rfl
  rw [← first]
  cases hl : (s.awaited labels).filterMap id with
  | nil => rfl
  | cons r rs =>
    rw [hl, List.length_cons] at single
    cases List.length_eq_zero_iff.mp (Nat.le_zero.mp (Nat.le_of_succ_le_succ single))
    rfl

section Line

variable {source : List Char}

theorem name?_of_text {t : Token} (text : t.mark.text? source = some t.text) :
    t.mark.name? source = some t.name := by
  rw [Mark.name?, text]
  rfl

theorem gives_readStatement {head : Token} {operands : List Token}
    (texts : ∀ t ∈ head :: operands, t.mark.text? source = some t.text) :
    (readStatement source head.mark (operands.map Token.mark)).Gives
      ((Statement.ofTokens head operands).map fun s => (s.mnemonic, s.span)) := by
  have name := name?_of_text (texts head List.mem_cons_self)
  have found : (operands.map Token.mark).find? (fun m => !m.isOperand) =
      (operands.find? fun t => !t.isOperand).map Token.mark := List.find?_map
  have kind : head.mark.kind = head.kind := rfl
  unfold readStatement Statement.ofTokens
  rw [found, kind, List.length_map]
  split
  next => exact bind_need name (gives_throw _)
  cases stray : operands.find? fun t => !t.isOperand with
  | some t =>
    have text := texts t (List.mem_cons_of_mem _ (List.mem_of_find?_eq_some stray))
    exact bind_need (name?_of_text text) (gives_throw _)
  | none =>
    refine bind_need name ?_
    cases Mnemonic.find? head.name with
    | none => exact gives_throw _
    | some m =>
      refine bind_need (statementSpan_checked head operands) ?_
      by_cases arity : operands.length = m.arity
      · simp only [if_pos arity, dif_pos arity]
        exact gives_pure _
      · simp only [if_neg arity, dif_neg arity]
        exact gives_throw _

theorem gives_readOperand {t : Token} (text : t.mark.text? source = some t.text) (labels : LabelTable)
    (kind : OperandKind) :
    (readOperand source labels kind t.mark).Gives
      ((t.operand labels kind).map fun operand => (operand, t.reference? labels kind)) := by
  have same : t.mark.kind = t.kind := rfl
  refine bind_need text ?_
  unfold Token.operand Token.reference?
  rw [same]
  by_cases number : t.kind = .number
  · obtain ⟨n, read, value⟩ := Literal.parse64?_eq t.text
    rw [if_pos number, if_pos number, ← value]
    refine bind_need read ?_
    cases n with
    | none => exact gives_throw _
    | some n =>
      simp only [number, ne_eq, not_true, false_and, if_false]
      exact gives_pure _
  have name : String.ofList t.text = t.name := rfl
  by_cases word : kind.isWord
  · simp only [name, number, word, ne_eq, not_false_eq_true, true_and, if_false, if_true]
    cases labels.get? t.name with
    | none => exact gives_pure _
    | some address => exact gives_pure _
  · simp only [number, word, Bool.false_eq_true, false_and, and_false, if_false]
    exact gives_pure _

theorem gives_readOperands {s : Statement} (texts : ∀ t ∈ s.operands, t.mark.text? source = some t.text)
    (labels : LabelTable) :
    ((s.mnemonic.kinds.zip (s.operands.map Token.mark)).mapM fun (kind, t) => readOperand source labels kind t).Gives
      ((s.readOperands labels).map fun operands : List Operand => operands.zip (s.awaited labels)) := by
  rw [Statement.readOperands, Statement.awaited, ← mapM_pair, List.zip_map_right, List.mapM_map]
  exact gives_mapM fun pair mem => gives_readOperand (texts pair.2 (List.of_mem_zip mem).2) labels pair.1

theorem Pass.gives_emit {p : Pass} {s : Statement} (texts : ∀ t ∈ s.operands, t.mark.text? source = some t.text)
    (hm : s.mnemonic ∈ Mnemonic.table) (within : p.offset ≤ windowSize) (line : Nat) :
    (p.checkedEmit source line s.mnemonic s.span (s.operands.map Token.mark)).Gives (p.emit line s) := by
  have read := gives_readOperands texts p.labels
  unfold Pass.checkedEmit
  cases ho : s.readOperands p.labels with
  | error c =>
    rw [ho] at read
    rw [Pass.emit_of_error (Statement.instr_of_operand_error ho)]
    exact read.bind_error _
  | ok operands =>
    rw [ho] at read
    refine Gives.bind_ok read ?_
    have length : operands.length = (s.mnemonic.kinds.zip s.operands).length := length_of_mapM ho
    have arity : operands.length = s.mnemonic.arity := by
      rw [length, List.length_zip, s.length_operands]
      exact Nat.min_self _
    have same : (s.awaited p.labels).length = operands.length := by rw [length, Statement.awaited, List.length_map]
    have operand : (operands.zip (s.awaited p.labels)).map Prod.fst = operands :=
      List.map_fst_zip (Nat.le_of_eq same.symm)
    have awaited : (operands.zip (s.awaited p.labels)).filterMap Prod.snd = (s.awaited p.labels).filterMap id := by
      rw [← List.map_snd_zip (Nat.le_of_eq same), List.filterMap_map, List.map_snd_zip (Nat.le_of_eq same)]
      rfl
    rw [operand, awaited]
    have made := gives_readInstr hm s.length_operands arity s.span
    rw [← Statement.instr_of_operands ho] at made
    cases hi : s.instr p.labels with
    | error c =>
      rw [hi] at made
      rw [Pass.emit_of_error hi]
      exact made.bind_error _
    | ok i =>
      rw [hi] at made
      refine Gives.bind_ok made ?_
      rw [Statement.last_awaited hm hi]
      by_cases fits : p.offset + i.size ≤ windowSize
      · have room : p.offset + i.encode.length ≤ windowSize := by rwa [i.length_encode]
        have copied : p.image.copy? p.offset i.encode = some (p.image.write p.offset i.encode) := if_pos room
        rw [if_pos room]
        refine bind_need copied (bind_need (word?_of_le within) ?_)
        rw [toNat_ofNat_of_le_windowSize within]
        unfold Pass.emit
        rw [hi]
        simp only [bind, Except.bind, if_pos room]
        exact gives_pure _
      · have overflow : ¬p.offset + i.encode.length ≤ windowSize := by rwa [i.length_encode]
        rw [Pass.emit_of_overflow hi fits, if_neg overflow]
        exact gives_throw _

theorem Pass.gives_define {p : Pass} {name : Token} (text : name.mark.text? source = some name.text)
    (within : p.offset ≤ windowSize) : (p.checkedDefine source name.mark).Gives (p.define name) := by
  refine bind_need (name?_of_text text) (bind_need (word?_of_le within) ?_)
  unfold Pass.define
  rw [addressOf]
  cases p.labels.insert? name.name (windowBase + UInt16.ofNat p.offset) with
  | none => exact gives_throw _
  | some labels => exact gives_pure _

theorem label?_marked (line : SourceLine) : line.marked.label? = line.label?.map Token.mark := by
  obtain ⟨number, tokens⟩ := line
  cases tokens with
  | nil => rfl
  | cons name rest =>
    cases rest with
    | nil => rfl
    | cons colon rest =>
      change (if name.kind = .ident ∧ colon.kind = .colon then some name.mark else none) =
        (if name.kind = .ident ∧ colon.kind = .colon then some name else none).map Token.mark
      split <;> rfl

theorem body_marked (line : SourceLine) : line.marked.body = line.body.map Token.mark := by
  unfold MarkedLine.body SourceLine.body
  rw [label?_marked, Option.isSome_map]
  split
  next => exact List.map_drop.symm
  next => rfl

theorem Pass.gives_body {p : Pass} {line : SourceLine} (texts : ∀ t ∈ line.tokens, t.mark.text? source = some t.text)
    (within : p.offset ≤ windowSize) : (p.checkedBody source line.marked).Gives (p.body line) := by
  have texts : ∀ t ∈ line.body, t.mark.text? source = some t.text := fun t ht => texts t (line.body_sublist.subset ht)
  unfold Pass.checkedBody Pass.body
  rw [body_marked]
  cases hb : line.body with
  | nil => exact gives_pure p
  | cons head operands =>
    rw [hb] at texts
    have read := gives_readStatement texts
    rw [List.map_cons]
    dsimp only
    cases hs : Statement.ofTokens head operands with
    | error c =>
      rw [hs] at read
      exact read.bind_error _
    | ok s =>
      rw [hs] at read
      refine Gives.bind_ok read ?_
      have hm := Statement.mnemonic_mem_table hs
      obtain ⟨-, -, -, -, tail⟩ := Statement.ofTokens_eq_ok hs
      have emit := Pass.gives_emit (fun t ht => texts t (List.mem_cons_of_mem _ (tail ▸ ht))) hm within line.number
      rwa [tail] at emit

theorem Pass.checkedSettle_eq {p : Pass} {line : SourceLine}
    (texts : ∀ t ∈ line.tokens, t.mark.text? source = some t.text) (within : p.offset ≤ windowSize) :
    p.checkedSettle source line.marked = some (p.settle line) := by
  have body : (p.checkedBody source line.marked).run = some (p.body line) := Pass.gives_body texts within
  rw [Pass.checkedSettle, body, Pass.settle]
  cases p.body line <;> rfl

/-- On a line of the source, every operation is in range. -/
theorem Pass.checkedLine_eq {p : Pass} {line : SourceLine}
    (texts : ∀ t ∈ line.tokens, t.mark.text? source = some t.text) (within : p.offset ≤ windowSize) :
    p.checkedLine source line.marked = some (p.line line) := by
  rw [Pass.line_eq]
  unfold Pass.checkedLine
  rw [label?_marked]
  cases hl : line.label? with
  | none => exact Pass.checkedSettle_eq texts within
  | some name =>
    have define : (p.checkedDefine source name.mark).run = some (p.define name) :=
      Pass.gives_define (texts name (SourceLine.label?_mem hl)) within
    rw [Option.map_some]
    dsimp only
    rw [define]
    unfold Pass.define
    cases p.labels.insert? name.name (addressOf p.offset) with
    | none => rfl
    | some labels => exact Pass.checkedSettle_eq texts within

end Line

end I8080
