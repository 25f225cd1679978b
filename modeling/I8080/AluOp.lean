import I8080.Word

namespace I8080

/-- The operations between the accumulator and a byte. -/
inductive AluOp where
  | add | adc | sub | sbb | ana | xra | ora | cmp
  deriving DecidableEq

/-- The mnemonic with a register operand. -/
def AluOp.name : AluOp → String
  | .add => "add"
  | .adc => "adc"
  | .sub => "sub"
  | .sbb => "sbb"
  | .ana => "ana"
  | .xra => "xra"
  | .ora => "ora"
  | .cmp => "cmp"

/-- The mnemonic with an immediate operand. -/
def AluOp.immediateName : AluOp → String
  | .add => "adi"
  | .adc => "aci"
  | .sub => "sui"
  | .sbb => "sbi"
  | .ana => "ani"
  | .xra => "xri"
  | .ora => "ori"
  | .cmp => "cpi"

def AluOp.code : AluOp → Digit
  | .add => digit 0
  | .adc => digit 1
  | .sub => digit 2
  | .sbb => digit 3
  | .ana => digit 4
  | .xra => digit 5
  | .ora => digit 6
  | .cmp => digit 7

def AluOp.ofCode : Digit → AluOp
  | 0 => .add
  | 1 => .adc
  | 2 => .sub
  | 3 => .sbb
  | 4 => .ana
  | 5 => .xra
  | 6 => .ora
  | 7 => .cmp

theorem AluOp.ofCode_code (op : AluOp) : AluOp.ofCode op.code = op := by
  cases op <;> rfl

theorem AluOp.code_ofCode (n : Digit) : (AluOp.ofCode n).code = n := by
  revert n
  decide

end I8080
