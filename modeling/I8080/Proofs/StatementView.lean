import I8080.Proofs.View

namespace I8080

theorem forall₂_zip {α β γ : Type} {same : β → γ → Prop} {related : α × β → α × γ → Prop} {as : List α} {bs : List β}
    {cs : List γ} (h : List.Forall₂ same bs cs)
    (each : ∀ a b c, (a, b) ∈ as.zip bs → same b c → related (a, b) (a, c)) :
    List.Forall₂ related (as.zip bs) (as.zip cs) := by
  induction h generalizing as with
  | nil => rw [List.zip_nil_right, List.zip_nil_right]; exact .nil
  | cons first _ ih =>
    cases as with
    | nil => exact .nil
    | cons a as =>
      rw [List.zip_cons_cons] at each
      exact .cons (each _ _ _ List.mem_cons_self first) (ih fun a b c mem => each a b c (List.mem_cons_of_mem _ mem))

namespace View

variable (v : View)

/-- Two operands in their places that read the same against every label table, up to `same`. -/
structure Operands (same : Operand → Operand → Prop) (a b : OperandKind × Token) : Prop where
  operand (labels : LabelTable) :
    Alike v.Complains same (a.2.operand labels a.1) (b.2.operand (labels.rename v.rename) b.1)
  reference (labels : LabelTable) :
    (a.2.reference? labels a.1).map (fun r => v.reference (r.rename v.rename)) =
      (b.2.reference? (labels.rename v.rename) b.1).map v.reference

/-- Two errors in the operands of one mnemonic that look the same wherever the operands stand. -/
def Blames (e d : OperandError) : Prop :=
  e.operand = d.operand ∧ ∀ span, v.Complains ⟨span, e.error⟩ ⟨span, d.error⟩

/-- Two tokens that look the same where neither can stand. -/
structure Strays (t u : Token) : Prop where
  kind : u.kind = t.kind
  unexpected : t.kind ≠ .ident → v.Complains ⟨t.span, .unexpectedToken t.name⟩ ⟨u.span, .unexpectedToken u.name⟩

variable {v}

/-- Operands are read the same if their numbers are, and if the names of labels stand for one another. -/
theorem operands_of_tokens {same : Operand → Operand → Prop} {kind : OperandKind} {t u : Token}
    (operand : t.isOperand = true) (kinds : u.kind = t.kind) (place : v.place t.span = v.place u.span)
    (values : ∀ n, same (.value n) (.value n))
    (number : t.kind = .number → Literal.parse? u.text = Literal.parse? t.text ∧
      v.Complains ⟨t.span, .malformedLiteral t.name⟩ ⟨u.span, .malformedLiteral u.name⟩)
    (label : t.kind = .ident → kind.isWord = true → u.name = v.rename t.name)
    (name : t.kind = .ident → ¬kind.isWord = true → same (.name t.name) (.name u.name)) :
    v.Operands same (kind, t) (kind, u) := by
  have operand : t.kind = .ident ∨ t.kind = .number := of_decide_eq_true operand
  constructor
  case operand =>
    intro labels
    unfold Token.operand
    dsimp only
    rw [kinds]
    by_cases digits : t.kind = .number
    · obtain ⟨parsed, malformed⟩ := number digits
      rw [if_pos digits, if_pos digits, parsed]
      cases Literal.parse? t.text with
      | none => exact .error malformed
      | some n => exact .ok (values n)
    · have ident := operand.resolve_right digits
      rw [if_neg digits, if_neg digits]
      by_cases word : kind.isWord = true
      · rw [if_pos word, if_pos word, label ident word, LabelTable.get?_rename v.injective]
        exact .ok (values _)
      · rw [if_neg word, if_neg word]
        exact .ok (name ident word)
  case reference =>
    intro labels
    unfold Token.reference?
    dsimp only
    rw [kinds]
    by_cases word : t.kind ≠ .number ∧ kind.isWord = true
    · have shown : v.reference (Reference.rename v.rename ⟨t.name, t.span⟩) = v.reference ⟨v.rename t.name, u.span⟩ :=
        congrArg (v.rename t.name, ·) place
      rw [label (operand.resolve_right word.1) word.2, LabelTable.get?_rename v.injective]
      split_ifs
      · exact congrArg some shown
      · rfl
    · rw [if_neg fun h => word ⟨h.1, h.2.1⟩, if_neg fun h => word ⟨h.1, h.2.1⟩]
      rfl

theorem references_of_operands {same : Operand → Operand → Prop} {as bs : List (OperandKind × Token)}
    (h : List.Forall₂ (v.Operands same) as bs) (labels : LabelTable) :
    ((as.findSome? fun a => a.2.reference? labels a.1).map fun r => v.reference (r.rename v.rename)) =
      (bs.findSome? fun b => b.2.reference? (labels.rename v.rename) b.1).map v.reference := by
  induction h with
  | nil => rfl
  | @cons a b _ _ first _ ih =>
    have reference := first.reference labels
    rw [List.findSome?_cons, List.findSome?_cons]
    cases ha : a.2.reference? labels a.1 with
    | none =>
      rw [ha] at reference
      rw [Option.map_eq_none_iff.mp reference.symm]
      exact ih
    | some r =>
      rw [ha] at reference
      obtain ⟨r', hb, same⟩ := Option.map_eq_some_iff.mp reference.symm
      rw [hb]
      exact congrArg some same.symm

theorem place_of_operands {ts us : List Token} {span span' : Span} (own : v.place span = v.place span')
    (spans : (ts.map fun t => v.place t.span) = us.map fun t => v.place t.span) (k : Nat) :
    v.place ((ts[k]?.map Token.span).getD span) = v.place ((us[k]?.map Token.span).getD span') := by
  have shown (ts : List Token) (span : Span) : v.place ((ts[k]?.map Token.span).getD span) =
      (ts.map fun t => v.place t.span)[k]?.getD (v.place span) := by
    rw [List.getElem?_map]
    cases ts[k]? <;> rfl
  rw [shown, shown, own, spans]

/-- Statements of one mnemonic come to the same if their operands read the same and it makes the same of what is read. -/
theorem states_of_operands (same : Operand → Operand → Prop) {s t : Statement} (mnemonic : s.mnemonic = t.mnemonic)
    (span : v.place s.span = v.place t.span)
    (spans : (s.operands.map fun t => v.place t.span) = t.operands.map fun t => v.place t.span)
    (operands : List.Forall₂ (v.Operands same) (s.mnemonic.kinds.zip s.operands) (t.mnemonic.kinds.zip t.operands))
    (instr : ∀ as bs, List.Forall₂ same as bs → Alike v.Blames Eq (s.mnemonic.instr as) (s.mnemonic.instr bs)) :
    v.States s t where
  span := span
  instr labels := by
    have read : Alike v.Complains (List.Forall₂ same) (s.readOperands labels)
        (t.readOperands (labels.rename v.rename)) := Alike.mapM operands fun _ _ h => h.operand labels
    generalize hs : s.readOperands labels = first at read
    generalize ht : t.readOperands (labels.rename v.rename) = second at read
    cases read with
    | error complains =>
      rw [Statement.instr_of_operand_error hs, Statement.instr_of_operand_error ht]
      exact .error complains
    | ok values =>
      rw [Statement.instr_of_operands hs, Statement.instr_of_operands ht, ← mnemonic]
      refine (instr _ _ values).mapError fun e d blames => ?_
      rw [← blames.1]
      exact (v.remark_eq _ _ (place_of_operands span spans e.operand) _).trans (blames.2 _)
  reference labels := references_of_operands operands labels

/-- The first token that cannot be an operand looks the same in both rows. -/
theorem strays_of_tokens {operands operands' : List Token} (h : List.Forall₂ v.Strays operands operands') :
    Option.Rel v.Strays (operands.find? fun t => !t.isOperand) (operands'.find? fun t => !t.isOperand) := by
  induction h with
  | nil => exact .none
  | @cons t u _ _ same _ ih =>
    have operand : u.isOperand = t.isOperand := by rw [Token.isOperand, Token.isOperand, same.kind]
    rw [List.find?_cons, List.find?_cons, operand]
    cases t.isOperand with
    | true => exact ih
    | false => exact .some same

theorem ofTokens_of_strays {head head' : Token} {operands operands' : List Token} (first : v.Strays head head')
    (rest : List.Forall₂ v.Strays operands operands')
    (known : Mnemonic.find? head'.name = Mnemonic.find? head.name)
    (unknown : v.Complains ⟨head.span, .unknownMnemonic head.name⟩ ⟨head'.span, .unknownMnemonic head'.name⟩)
    (span : v.place (statementSpan head operands) = v.place (statementSpan head' operands'))
    (states : ∀ (m : Mnemonic) (arity : operands.length = m.arity) (arity' : operands'.length = m.arity),
      Mnemonic.find? head.name = some m → (∀ t ∈ operands, t.isOperand = true) →
      v.States ⟨m, head, operands, arity⟩ ⟨m, head', operands', arity'⟩) :
    Alike v.Complains v.States (Statement.ofTokens head operands) (Statement.ofTokens head' operands') := by
  have length := rest.length_eq
  have strays := strays_of_tokens rest
  unfold Statement.ofTokens
  rw [first.kind, known]
  split_ifs with word
  · exact .error (first.unexpected word)
  · generalize hf : (operands.find? fun t => !t.isOperand) = stray at strays
    generalize (operands'.find? fun t => !t.isOperand) = stray' at strays
    cases strays with
    | @some t u same =>
      have operand : t.isOperand = false := by simpa using List.find?_some hf
      exact .error (same.unexpected fun ident => of_decide_eq_false operand (.inl ident))
    | none =>
      dsimp only
      cases hm : Mnemonic.find? head.name with
      | none => exact .error unknown
      | some m =>
        dsimp only
        by_cases arity : operands.length = m.arity
        · rw [dif_pos arity, dif_pos (length ▸ arity)]
          have clean : ∀ t ∈ operands, t.isOperand = true := by simpa using List.find?_eq_none.mp hf
          exact .ok (states m arity (length ▸ arity) hm clean)
        · rw [dif_neg arity, dif_neg (length ▸ arity), ← length]
          exact .error (v.remark_eq _ _ span _)

end View

end I8080
