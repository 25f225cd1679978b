import I8080.Instr
import I8080.Word

namespace I8080

def withWord (opcode : UInt8) (w : UInt16) : List UInt8 :=
  [opcode, Word.low w, Word.high w]

/-- The bytes of an instruction: the opcode, then an immediate byte or an address, low byte first. -/
def Instr.encode : Instr → List UInt8
  | .nop => [octal 0 0 0]
  | .hlt => [octal 1 6 6]
  | .mov dest src => [octal 1 dest.code src.code]
  | .mvi dest value => [octal 0 dest.code 6, value]
  | .lxi pair value => withWord (octal 0 (2 * pair.code) 1) value
  | .lda address => withWord (octal 0 7 2) address
  | .sta address => withWord (octal 0 6 2) address
  | .lhld address => withWord (octal 0 5 2) address
  | .shld address => withWord (octal 0 4 2) address
  | .ldax pair => [octal 0 (2 * pair.code + 1) 2]
  | .stax pair => [octal 0 (2 * pair.code) 2]
  | .xchg => [octal 3 5 3]
  | .alu op src => [octal 2 op.code src.code]
  | .aluImmediate op value => [octal 3 op.code 6, value]
  | .inr loc => [octal 0 loc.code 4]
  | .dcr loc => [octal 0 loc.code 5]
  | .inx pair => [octal 0 (2 * pair.code) 3]
  | .dcx pair => [octal 0 (2 * pair.code + 1) 3]
  | .dad pair => [octal 0 (2 * pair.code + 1) 1]
  | .daa => [octal 0 4 7]
  | .cma => [octal 0 5 7]
  | .cmc => [octal 0 7 7]
  | .stc => [octal 0 6 7]
  | .rlc => [octal 0 0 7]
  | .rrc => [octal 0 1 7]
  | .ral => [octal 0 2 7]
  | .rar => [octal 0 3 7]
  | .jmp address => withWord (octal 3 0 3) address
  | .jmpIf condition address => withWord (octal 3 condition.code 2) address
  | .call address => withWord (octal 3 1 5) address
  | .callIf condition address => withWord (octal 3 condition.code 4) address
  | .ret => [octal 3 1 1]
  | .retIf condition => [octal 3 condition.code 0]
  | .rst vector => [octal 3 vector 7]
  | .pchl => [octal 3 5 1]
  | .push pair => [octal 3 (2 * pair.code) 5]
  | .pop pair => [octal 3 (2 * pair.code) 1]
  | .xthl => [octal 3 4 3]
  | .sphl => [octal 3 7 1]

theorem Instr.length_encode (i : Instr) : i.encode.length = i.size := by
  cases i <;> rfl

/-- Instructions whose opcode has the octal digits `0`, `y`, `z`. -/
def Instr.decodeFirst (y z : Digit) (value : UInt8) (word : UInt16) : Option Instr :=
  let pair := RegPair.ofCode .sp (y.val / 2)
  match z with
  | 0 => if y = 0 then some .nop else none
  | 1 => some (if y.val % 2 = 0 then .lxi pair word else .dad pair)
  | 2 =>
    match y with
    | 0 => some (.stax .bc)
    | 1 => some (.ldax .bc)
    | 2 => some (.stax .de)
    | 3 => some (.ldax .de)
    | 4 => some (.shld word)
    | 5 => some (.lhld word)
    | 6 => some (.sta word)
    | 7 => some (.lda word)
  | 3 => some (if y.val % 2 = 0 then .inx pair else .dcx pair)
  | 4 => some (.inr (.ofCode y))
  | 5 => some (.dcr (.ofCode y))
  | 6 => some (.mvi (.ofCode y) value)
  | 7 =>
    match y with
    | 0 => some .rlc
    | 1 => some .rrc
    | 2 => some .ral
    | 3 => some .rar
    | 4 => some .daa
    | 5 => some .cma
    | 6 => some .stc
    | 7 => some .cmc

/-- Instructions whose opcode has the octal digits `3`, `y`, `z`. The input, output and interrupt group
and the unused opcodes are not among them. -/
def Instr.decodeLast (y z : Digit) (value : UInt8) (word : UInt16) : Option Instr :=
  let pair := RegPair.ofCode .psw (y.val / 2)
  match z with
  | 0 => some (.retIf (.ofCode y))
  | 1 =>
    match y with
    | 1 => some .ret
    | 3 => none
    | 5 => some .pchl
    | 7 => some .sphl
    | _ => some (.pop pair)
  | 2 => some (.jmpIf (.ofCode y) word)
  | 3 =>
    match y with
    | 0 => some (.jmp word)
    | 4 => some .xthl
    | 5 => some .xchg
    | _ => none
  | 4 => some (.callIf (.ofCode y) word)
  | 5 =>
    match y with
    | 1 => some (.call word)
    | 0 | 2 | 4 | 6 => some (.push pair)
    | _ => none
  | 6 => some (.aluImmediate (.ofCode y) value)
  | 7 => some (.rst y)

/-- The instruction with this opcode. The two bytes after it in memory are `low` and `high`; only an
instruction with an immediate operand or an address looks at them. -/
def Instr.decode (opcode low high : UInt8) : Option Instr :=
  let y := digit (opcode.toNat / 8)
  let z := digit opcode.toNat
  let word := Word.join low high
  match opcode.toNat / 64 with
  | 0 => Instr.decodeFirst y z low word
  | 1 => some (if y = 6 ∧ z = 6 then .hlt else .mov (.ofCode y) (.ofCode z))
  | 2 => some (.alu (.ofCode y) (.ofCode z))
  | _ => Instr.decodeLast y z low word

end I8080
