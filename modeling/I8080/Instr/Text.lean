import I8080.Instr
import I8080.Text.Format

namespace I8080

def hexByte (b : UInt8) : String :=
  "0x" ++ Hex.byte b

def hexWord (w : UInt16) : String :=
  "0x" ++ Hex.word w

/-- An instruction in assembly language, with its numbers in hexadecimal. -/
def Instr.toText : Instr → String
  | .nop => "nop"
  | .hlt => "hlt"
  | .mov dest src => "mov " ++ dest.name ++ ", " ++ src.name
  | .mvi dest value => "mvi " ++ dest.name ++ ", " ++ hexByte value
  | .lxi pair value => "lxi " ++ pair.name ++ ", " ++ hexWord value
  | .lda address => "lda " ++ hexWord address
  | .sta address => "sta " ++ hexWord address
  | .lhld address => "lhld " ++ hexWord address
  | .shld address => "shld " ++ hexWord address
  | .ldax pair => "ldax " ++ pair.name
  | .stax pair => "stax " ++ pair.name
  | .xchg => "xchg"
  | .alu op src => op.name ++ " " ++ src.name
  | .aluImmediate op value => op.immediateName ++ " " ++ hexByte value
  | .inr loc => "inr " ++ loc.name
  | .dcr loc => "dcr " ++ loc.name
  | .inx pair => "inx " ++ pair.name
  | .dcx pair => "dcx " ++ pair.name
  | .dad pair => "dad " ++ pair.name
  | .daa => "daa"
  | .cma => "cma"
  | .cmc => "cmc"
  | .stc => "stc"
  | .rlc => "rlc"
  | .rrc => "rrc"
  | .ral => "ral"
  | .rar => "rar"
  | .jmp address => "jmp " ++ hexWord address
  | .jmpIf condition address => "j" ++ condition.suffix ++ " " ++ hexWord address
  | .call address => "call " ++ hexWord address
  | .callIf condition address => "c" ++ condition.suffix ++ " " ++ hexWord address
  | .ret => "ret"
  | .retIf condition => "r" ++ condition.suffix
  | .rst vector => "rst " ++ toString vector.val
  | .pchl => "pchl"
  | .push pair => "push " ++ pair.name
  | .pop pair => "pop " ++ pair.name
  | .xthl => "xthl"
  | .sphl => "sphl"

end I8080
