import I8080.Register
import I8080.Condition
import I8080.AluOp

namespace I8080

/-- An instruction with its operands. -/
inductive Instr where
  | nop
  | hlt
  | mov (dest src : Loc)
  | mvi (dest : Loc) (value : UInt8)
  | lxi (pair : RegPair) (value : UInt16)
  | lda (address : UInt16)
  | sta (address : UInt16)
  | lhld (address : UInt16)
  | shld (address : UInt16)
  | ldax (pair : RegPair)
  | stax (pair : RegPair)
  | xchg
  | alu (op : AluOp) (src : Loc)
  | aluImmediate (op : AluOp) (value : UInt8)
  | inr (loc : Loc)
  | dcr (loc : Loc)
  | inx (pair : RegPair)
  | dcx (pair : RegPair)
  | dad (pair : RegPair)
  | daa
  | cma
  | cmc
  | stc
  | rlc
  | rrc
  | ral
  | rar
  | jmp (address : UInt16)
  | jmpIf (condition : Condition) (address : UInt16)
  | call (address : UInt16)
  | callIf (condition : Condition) (address : UInt16)
  | ret
  | retIf (condition : Condition)
  | rst (vector : Digit)
  | pchl
  | push (pair : RegPair)
  | pop (pair : RegPair)
  | xthl
  | sphl
  deriving DecidableEq

/-- Length in bytes, opcode included. -/
def Instr.size : Instr → Nat
  | .mvi .. | .aluImmediate .. => 2
  | .lxi .. | .lda _ | .sta _ | .lhld _ | .shld _ | .jmp _ | .jmpIf .. | .call _ | .callIf .. => 3
  | _ => 1

/-- The instructions that the byte format can hold: no move from memory to memory, and every pair operand
among those that its opcode has a code for. -/
def Instr.Canonical : Instr → Prop
  | .mov dest src => ¬(dest = .mem ∧ src = .mem)
  | .lxi pair _ | .inx pair | .dcx pair | .dad pair => pair ≠ .psw
  | .ldax pair | .stax pair => pair = .bc ∨ pair = .de
  | .push pair | .pop pair => pair ≠ .sp
  | _ => True

instance (i : Instr) : Decidable i.Canonical := by
  cases i <;> unfold Instr.Canonical <;> infer_instance

end I8080
