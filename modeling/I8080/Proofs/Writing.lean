import I8080.Proofs.Lexeme
import I8080.Proofs.Literal
import I8080.Proofs.Mnemonic

namespace I8080

/-- How a disassembly writes an operand. -/
def OperandKind.text : (kind : OperandKind) → kind.Value → String
  | .register, loc => loc.name
  | .pair _, p => p.name
  | .byte, b => hexByte b
  | .word, w | .address, w => hexWord w
  | .vector, v => toString v.val

/-- The kind of token that the text of an operand is. -/
def OperandKind.token : OperandKind → Token.Kind
  | .register | .pair _ => .ident
  | _ => .number

/-- Whether an operand of this kind may have the value. -/
def OperandKind.Allows : (kind : OperandKind) → kind.Value → Prop
  | .pair allowed, p => allowed.allows p = true
  | _, _ => True

theorem Loc.isWord_name (loc : Loc) : IsWord .ident loc.name.toList := by
  cases loc with
  | mem => exact .of_ident (by decide) (by decide)
  | reg r => cases r <;> exact .of_ident (by decide) (by decide)

theorem RegPair.isWord_name (pair : RegPair) : IsWord .ident pair.name.toList := by
  cases pair <;> exact .of_ident (by decide) (by decide)

theorem Hex.isWord_digits (width n : Nat) : IsWord .number ('0' :: 'x' :: Hex.digits width n) := by
  refine .number (by decide) ?_
  intro d hd
  rcases List.mem_cons.mp hd with rfl | later
  · decide
  · obtain ⟨k, hk, rfl⟩ := Hex.mem_digits later
    exact Hex.isAlphanum_digit k hk

theorem Octal.isWord_digit (v : Digit) : IsWord .number (toString v.val).toList := by
  have digits : ∀ v : Digit, (toString v.val).toList.head?.any Char.isDigit = true ∧
      (toString v.val).toList.all Char.isAlphanum = true := by decide
  exact .of_number (digits v).1 (digits v).2

theorem OperandKind.isWord_text (kind : OperandKind) (value : kind.Value) :
    IsWord kind.token (kind.text value).toList := by
  cases kind with
  | register => exact Loc.isWord_name value
  | pair => exact RegPair.isWord_name value
  | byte => simpa [OperandKind.token, OperandKind.text, hexByte, Hex.byte] using Hex.isWord_digits 2 value.toNat
  | word | address =>
    simpa [OperandKind.token, OperandKind.text, hexWord, Hex.word] using Hex.isWord_digits 4 value.toNat
  | vector => exact Octal.isWord_digit value

/-- What stands before the operand at a position. -/
def operandBlank : Nat → List Char
  | 0 => [' ']
  | _ => [',', ' ']

def OperandKind.spaced (position : Nat) (kind : OperandKind) (value : kind.Value) : Spaced where
  blank := operandBlank position
  kind := kind.token
  word := (kind.text value).toList
  blank_ne_nil := by cases position <;> simp [operandBlank]
  separators := by cases position <;> simp [operandBlank, isSeparator]
  isWord := kind.isWord_text value

def OperandKind.spacedAll : Nat → (kinds : List OperandKind) → OperandKind.Values kinds → List Spaced
  | _, [], _ => []
  | position, kind :: kinds, (value, values) =>
    kind.spaced position value :: OperandKind.spacedAll (position + 1) kinds values

/-- The tokens of operands, without the blanks. -/
def OperandKind.lexemes : (kinds : List OperandKind) → OperandKind.Values kinds → List (Token.Kind × List Char)
  | [], _ => []
  | kind :: kinds, (value, values) =>
    (kind.token, (kind.text value).toList) :: OperandKind.lexemes kinds values

def OperandKind.AllAllow : (kinds : List OperandKind) → OperandKind.Values kinds → Prop
  | [], _ => True
  | kind :: kinds, (value, values) => kind.Allows value ∧ OperandKind.AllAllow kinds values

theorem OperandKind.lexeme_spacedAll (kinds : List OperandKind) (values : OperandKind.Values kinds)
    (position : Nat) :
    (OperandKind.spacedAll position kinds values).map Spaced.lexeme = OperandKind.lexemes kinds values := by
  induction kinds generalizing position with
  | nil => rfl
  | cons kind kinds ih =>
    obtain ⟨value, values⟩ := values
    exact congrArg ((kind.token, (kind.text value).toList) :: ·) (ih values (position + 1))

/-- An instruction is made by an entry of the table from these values, and is written as its name and the
values. -/
structure Mnemonic.Makes (m : Mnemonic) (values : OperandKind.Values m.kinds) (i : Instr) : Prop where
  mem : m ∈ Mnemonic.table
  build : m.build values = .ok i
  allows : OperandKind.AllAllow m.kinds values
  text : i.toText.toList = m.name.toList ++ Spaced.row (OperandKind.spacedAll 0 m.kinds values)

/-- An entry stands in the table where it is found there by its own name. -/
theorem Mnemonic.mem_of_table {m : Mnemonic} (h : Mnemonic.table.find? (·.name = m.name) = some m) :
    m ∈ Mnemonic.table :=
  List.mem_of_find?_eq_some h

theorem Mnemonic.makes_plain (name : String) (i : Instr) (mem : ⟨name, [], .fixed i⟩ ∈ Mnemonic.table)
    (text : i.toText = name) : ∃ m values, Mnemonic.Makes m values i :=
  ⟨⟨name, [], .fixed i⟩, (), mem, rfl, trivial, by simp [text, OperandKind.spacedAll, Spaced.row]⟩

theorem Mnemonic.makes_unary (name : String) (kind : OperandKind) (make : kind.Value → Instr)
    (value : kind.Value) (mem : Mnemonic.unary name kind make ∈ Mnemonic.table)
    (text : (make value).toText = name ++ " " ++ kind.text value) (allows : kind.Allows value) :
    ∃ m values, Mnemonic.Makes m values (make value) :=
  ⟨.unary name kind make, (value, ()), mem, Mnemonic.build_unary name kind make _, ⟨allows, trivial⟩, by
    simp [text, Mnemonic.unary, OperandKind.spacedAll, OperandKind.spaced, operandBlank, Spaced.row]⟩

theorem Mnemonic.makes_binary (name : String) (first second : OperandKind) (form : Form) (value : first.Value)
    (value' : second.Value) {i : Instr} (mem : ⟨name, [first, second], form⟩ ∈ Mnemonic.table)
    (built : Mnemonic.build ⟨name, [first, second], form⟩ (value, value', ()) = .ok i)
    (text : i.toText = name ++ " " ++ first.text value ++ ", " ++ second.text value')
    (allows : first.Allows value) (allows' : second.Allows value') : ∃ m values, Mnemonic.Makes m values i :=
  ⟨⟨name, [first, second], form⟩, (value, value', ()), mem, built, ⟨allows, allows', trivial⟩, by
    simp [text, OperandKind.spacedAll, OperandKind.spaced, operandBlank, Spaced.row]⟩

theorem PairClass.allows_any {pair : RegPair} (h : pair ≠ .psw) : PairClass.any.allows pair = true := by
  cases pair <;> first | rfl | exact absurd rfl h

theorem PairClass.allows_stack {pair : RegPair} (h : pair ≠ .sp) : PairClass.stack.allows pair = true := by
  cases pair <;> first | rfl | exact absurd rfl h

theorem PairClass.allows_index {pair : RegPair} (h : pair = .bc ∨ pair = .de) :
    PairClass.index.allows pair = true := by
  rcases h with rfl | rfl <;> rfl

/-- Every instruction of the byte format comes from an entry of the table. -/
theorem Instr.made {i : Instr} (h : i.Canonical) : ∃ m values, Mnemonic.Makes m values i := by
  cases i with
  | nop | hlt | xchg | daa | cma | cmc | stc | rlc | rrc | ral | rar | ret | pchl | xthl | sphl =>
    exact Mnemonic.makes_plain _ _ (Mnemonic.mem_of_table rfl) rfl
  | retIf condition =>
    refine Mnemonic.makes_plain _ _ ?_ rfl
    cases condition <;> exact Mnemonic.mem_of_table rfl
  | lda address =>
    exact Mnemonic.makes_unary "lda" .address .lda address (Mnemonic.mem_of_table rfl) rfl trivial
  | sta address =>
    exact Mnemonic.makes_unary "sta" .address .sta address (Mnemonic.mem_of_table rfl) rfl trivial
  | lhld address =>
    exact Mnemonic.makes_unary "lhld" .address .lhld address (Mnemonic.mem_of_table rfl) rfl trivial
  | shld address =>
    exact Mnemonic.makes_unary "shld" .address .shld address (Mnemonic.mem_of_table rfl) rfl trivial
  | jmp address =>
    exact Mnemonic.makes_unary "jmp" .address .jmp address (Mnemonic.mem_of_table rfl) rfl trivial
  | call address =>
    exact Mnemonic.makes_unary "call" .address .call address (Mnemonic.mem_of_table rfl) rfl trivial
  | jmpIf condition address =>
    refine Mnemonic.makes_unary ("j" ++ condition.suffix) .address (.jmpIf condition) address ?_ rfl trivial
    cases condition <;> exact Mnemonic.mem_of_table rfl
  | callIf condition address =>
    refine Mnemonic.makes_unary ("c" ++ condition.suffix) .address (.callIf condition) address ?_ rfl trivial
    cases condition <;> exact Mnemonic.mem_of_table rfl
  | alu op src =>
    refine Mnemonic.makes_unary op.name .register (.alu op) src ?_ rfl trivial
    cases op <;> exact Mnemonic.mem_of_table rfl
  | aluImmediate op value =>
    refine Mnemonic.makes_unary op.immediateName .byte (.aluImmediate op) value ?_ rfl trivial
    cases op <;> exact Mnemonic.mem_of_table rfl
  | inr loc => exact Mnemonic.makes_unary "inr" .register .inr loc (Mnemonic.mem_of_table rfl) rfl trivial
  | dcr loc => exact Mnemonic.makes_unary "dcr" .register .dcr loc (Mnemonic.mem_of_table rfl) rfl trivial
  | inx p =>
    exact Mnemonic.makes_unary "inx" (.pair .any) .inx p (Mnemonic.mem_of_table rfl) rfl (PairClass.allows_any h)
  | dcx p =>
    exact Mnemonic.makes_unary "dcx" (.pair .any) .dcx p (Mnemonic.mem_of_table rfl) rfl (PairClass.allows_any h)
  | dad p =>
    exact Mnemonic.makes_unary "dad" (.pair .any) .dad p (Mnemonic.mem_of_table rfl) rfl (PairClass.allows_any h)
  | push p =>
    exact Mnemonic.makes_unary "push" (.pair .stack) .push p (Mnemonic.mem_of_table rfl) rfl (PairClass.allows_stack h)
  | pop p =>
    exact Mnemonic.makes_unary "pop" (.pair .stack) .pop p (Mnemonic.mem_of_table rfl) rfl (PairClass.allows_stack h)
  | ldax p =>
    exact Mnemonic.makes_unary "ldax" (.pair .index) .ldax p (Mnemonic.mem_of_table rfl) rfl (PairClass.allows_index h)
  | stax p =>
    exact Mnemonic.makes_unary "stax" (.pair .index) .stax p (Mnemonic.mem_of_table rfl) rfl (PairClass.allows_index h)
  | rst vector => exact Mnemonic.makes_unary "rst" .vector .rst vector (Mnemonic.mem_of_table rfl) rfl trivial
  | mov dest src =>
    have built := (Mnemonic.build_mov "mov" dest src).trans (if_neg h)
    exact Mnemonic.makes_binary "mov" .register .register .mov dest src (Mnemonic.mem_of_table rfl) built rfl trivial
      trivial
  | mvi dest value =>
    exact Mnemonic.makes_binary "mvi" .register .byte .mvi dest value (Mnemonic.mem_of_table rfl) rfl rfl trivial
      trivial
  | lxi p value =>
    exact Mnemonic.makes_binary "lxi" (.pair .any) .word .lxi p value (Mnemonic.mem_of_table rfl) rfl rfl
      (PairClass.allows_any h) trivial

end I8080
