import I8080.Proofs.Outcome
import I8080.Proofs.Writing

namespace I8080

theorem String.toLower_eq {s : String} (h : s.toList.map Char.toLower = s.toList) : s.toLower = s := by
  apply String.toList_inj.mp
  change (s.map Char.toLower).toList = _
  rw [String.toList_map, h]

theorem Loc.ofName?_name (loc : Loc) : Loc.ofName? loc.name = some loc := by
  have lower : loc.name.toList.map Char.toLower = loc.name.toList := by
    cases loc with
    | mem => decide
    | reg r => cases r <;> decide
  rw [Loc.ofName?, String.toLower_eq lower]
  cases loc with
  | mem => rfl
  | reg r => cases r <;> rfl

theorem RegPair.ofName?_name (pair : RegPair) : RegPair.ofName? pair.name = some pair := by
  have lower : pair.name.toList.map Char.toLower = pair.name.toList := by cases pair <;> decide
  rw [RegPair.ofName?, String.toLower_eq lower]
  cases pair <;> rfl

/-- What the text of an operand is read as before its kind is known. -/
def OperandKind.operand : (kind : OperandKind) → kind.Value → Operand
  | .register, loc => .name loc.name
  | .pair _, p => .name p.name
  | .byte, b => .value b.toNat
  | .word, w | .address, w => .value w.toNat
  | .vector, v => .value v.val

def OperandKind.operands : (kinds : List OperandKind) → OperandKind.Values kinds → List Operand
  | [], _ => []
  | kind :: kinds, (value, values) => kind.operand value :: OperandKind.operands kinds values

theorem OperandKind.length_operands (kinds : List OperandKind) (values : OperandKind.Values kinds) :
    (OperandKind.operands kinds values).length = kinds.length := by
  induction kinds with
  | nil => rfl
  | cons kind kinds ih => exact congrArg (· + 1) (ih values.2)

theorem OperandKind.read_operand (mnemonic : String) {kind : OperandKind} {value : kind.Value}
    (allows : kind.Allows value) : kind.read mnemonic (kind.operand value) = .ok value := by
  cases kind with
  | register => simp [OperandKind.operand, OperandKind.read, Loc.ofName?_name]
  | pair allowed =>
    have found : (RegPair.ofName? (RegPair.name value)).filter allowed.allows = some value := by
      rw [RegPair.ofName?_name, Option.filter_some]
      exact if_pos allows
    simp [OperandKind.operand, OperandKind.read, found]
  | byte => exact OperandKind.read_byte mnemonic value
  | word => exact OperandKind.read_word mnemonic value
  | address => exact OperandKind.read_address mnemonic value
  | vector => exact OperandKind.read_vector mnemonic value

theorem OperandKind.readAll_operands (mnemonic : String) (start : Nat) {kinds : List OperandKind}
    {values : OperandKind.Values kinds} (allow : OperandKind.AllAllow kinds values) :
    OperandKind.readAll mnemonic start kinds (OperandKind.operands kinds values)
      (OperandKind.length_operands kinds values) = .ok values := by
  induction kinds generalizing start with
  | nil => rfl
  | cons kind kinds ih =>
    obtain ⟨value, values⟩ := values
    obtain ⟨here, later⟩ := allow
    simp [OperandKind.operands, OperandKind.readAll, OperandKind.read_operand mnemonic here, ih (start + 1) later,
      Except.map]

theorem Mnemonic.Makes.instr {m : Mnemonic} {values : OperandKind.Values m.kinds} {i : Instr}
    (h : m.Makes values i) : m.instr (OperandKind.operands m.kinds values) = .ok i :=
  Mnemonic.instr_of_build (OperandKind.readAll_operands m.name 0 h.allows) h.build

theorem Token.operand_name {t : Token} {kind : OperandKind} (ident : t.kind = .ident)
    (wordless : kind.isWord = false) (labels : LabelTable) : t.operand labels kind = .ok (.name t.name) := by
  simp [Token.operand, ident, wordless]

theorem Token.operand_value {t : Token} {n : Int} (number : t.kind = .number)
    (parsed : Literal.parse? t.text = some n) (labels : LabelTable) (kind : OperandKind) :
    t.operand labels kind = .ok (.value n) := by
  simp [Token.operand, number, parsed]

theorem Token.operand_text {t : Token} {kind : OperandKind} {value : kind.Value}
    (h : t.lexeme = (kind.token, (kind.text value).toList)) (labels : LabelTable) :
    t.operand labels kind = .ok (kind.operand value) := by
  obtain ⟨hk, ht⟩ := Prod.mk.inj h
  have name : t.name = kind.text value := by rw [Token.name, ht, String.ofList_toList]
  cases kind with
  | register | pair =>
    rw [Token.operand_name hk rfl labels, name]
    rfl
  | byte => exact Token.operand_value hk (ht ▸ Literal.parse?_hexByte value) labels _
  | word => exact Token.operand_value hk (ht ▸ Literal.parse?_hexWord value) labels _
  | address => exact Token.operand_value hk (ht ▸ Literal.parse?_hexWord value) labels _
  | vector => exact Token.operand_value hk (ht ▸ Literal.parse?_digit value) labels _

theorem Token.kind_of_isWord {t : Token} {kind : OperandKind} {value : kind.Value}
    (h : t.lexeme = (kind.token, (kind.text value).toList)) (word : kind.isWord = true) : t.kind = .number := by
  have hk : t.kind = kind.token := (Prod.mk.inj h).1
  rw [hk]
  cases kind <;> first | rfl | cases word

theorem mapM_operand_lexemes {kinds : List OperandKind} {values : OperandKind.Values kinds} {tokens : List Token}
    (h : tokens.map Token.lexeme = OperandKind.lexemes kinds values) (labels : LabelTable) :
    (kinds.zip tokens).mapM (fun pair => pair.2.operand labels pair.1) =
      .ok (OperandKind.operands kinds values) := by
  induction kinds generalizing tokens with
  | nil => rfl
  | cons kind kinds ih =>
    obtain ⟨value, values⟩ := values
    cases tokens with
    | nil => cases h
    | cons t tokens =>
      obtain ⟨here, later⟩ := List.cons.inj h
      rw [List.zip_cons_cons, List.mapM_cons, ih later, Token.operand_text here]
      rfl

theorem references_lexemes {kinds : List OperandKind} {values : OperandKind.Values kinds} {tokens : List Token}
    (h : tokens.map Token.lexeme = OperandKind.lexemes kinds values) :
    ∀ pair ∈ kinds.zip tokens, pair.1.isWord = true → pair.2.kind = .number := by
  induction kinds generalizing tokens with
  | nil => simp
  | cons kind kinds ih =>
    obtain ⟨value, values⟩ := values
    cases tokens with
    | nil => simp
    | cons t tokens =>
      obtain ⟨here, later⟩ := List.cons.inj h
      rw [List.zip_cons_cons, List.forall_mem_cons]
      exact ⟨Token.kind_of_isWord here, ih later⟩

theorem find?_of_nodup {ms : List Mnemonic} (distinct : (ms.map Mnemonic.name).Nodup) {m : Mnemonic}
    (hm : m ∈ ms) : ms.find? (fun n => n.name == m.name) = some m := by
  induction ms with
  | nil => cases hm
  | cons first rest ih =>
    obtain ⟨fresh, distinct⟩ := List.nodup_cons.mp distinct
    rcases List.mem_cons.mp hm with rfl | later
    · simp
    · have other : first.name ≠ m.name := by
        intro same
        exact fresh (same ▸ List.mem_map_of_mem later)
      rw [List.find?_cons_of_neg (by simpa using other)]
      exact ih distinct later

theorem Mnemonic.find?_name {m : Mnemonic} (hm : m ∈ Mnemonic.table) : Mnemonic.find? m.name = some m := by
  have lower : ∀ name ∈ Mnemonic.table.map Mnemonic.name, name.toList.map Char.toLower = name.toList := by decide
  rw [Mnemonic.find?, String.toLower_eq (lower m.name (List.mem_map_of_mem hm))]
  exact find?_of_nodup (by decide) hm

theorem OperandKind.isOperand_lexemes {kinds : List OperandKind} {values : OperandKind.Values kinds}
    {tokens : List Token} (h : tokens.map Token.lexeme = OperandKind.lexemes kinds values) :
    tokens.length = kinds.length ∧ ∀ t ∈ tokens, t.isOperand = true := by
  induction kinds generalizing tokens with
  | nil =>
    have empty : tokens = [] := List.map_eq_nil_iff.mp h
    simp [empty]
  | cons kind kinds ih =>
    obtain ⟨value, values⟩ := values
    cases tokens with
    | nil => cases h
    | cons t tokens =>
      obtain ⟨here, later⟩ := List.cons.inj h
      obtain ⟨length, operands⟩ := ih later
      have first : t.isOperand = true := by
        have hk : t.kind = kind.token := (Prod.mk.inj here).1
        cases kind <;> simp [Token.isOperand, hk, OperandKind.token]
      exact ⟨congrArg (· + 1) length, List.forall_mem_cons.mpr ⟨first, operands⟩⟩

/-- A line of tokens as an instruction is written is read as that instruction, whatever the labels. -/
theorem Mnemonic.Makes.statement {m : Mnemonic} {values : OperandKind.Values m.kinds} {i : Instr}
    (h : m.Makes values i) {head : Token} {operands : List Token}
    (first : head.lexeme = (.ident, m.name.toList))
    (rest : operands.map Token.lexeme = OperandKind.lexemes m.kinds values) :
    ∃ s, Statement.ofTokens head operands = .ok s ∧ s.references = [] ∧ ∀ labels, s.instr labels = .ok i := by
  obtain ⟨ident, text⟩ := Prod.mk.inj first
  obtain ⟨length, operand⟩ := OperandKind.isOperand_lexemes rest
  have name : head.name = m.name := by rw [Token.name, text, String.ofList_toList]
  have read : Statement.ofTokens head operands = .ok ⟨m, head, operands, length⟩ := by
    have bad : operands.find? (fun t => !t.isOperand) = none := by simpa using operand
    have arity : operands.length = m.arity := length
    simp [Statement.ofTokens, ident, bad, name, Mnemonic.find?_name h.mem, arity]
  refine ⟨_, read, ?_, ?_⟩
  · have numbers := references_lexemes rest
    simp only [Statement.references, List.map_eq_nil_iff, List.filter_eq_nil_iff]
    intro pair hp
    cases hw : pair.1.isWord with
    | false => simp
    | true => simp [numbers pair hp hw]
  · intro labels
    have read : Statement.readOperands ⟨m, head, operands, length⟩ labels =
        .ok (OperandKind.operands m.kinds values) := mapM_operand_lexemes rest labels
    rw [Statement.instr_of_operands read, h.instr]
    rfl

end I8080
