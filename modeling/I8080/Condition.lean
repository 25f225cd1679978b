import I8080.Flags
import I8080.Word

namespace I8080

/-- What a conditional jump, call or return tests. -/
inductive Condition where
  | notZero | zero | noCarry | carry | parityOdd | parityEven | plus | minus
  deriving DecidableEq

def Condition.holds (f : Flags) : Condition → Bool
  | .notZero => !f.zero
  | .zero => f.zero
  | .noCarry => !f.carry
  | .carry => f.carry
  | .parityOdd => !f.parity
  | .parityEven => f.parity
  | .plus => !f.sign
  | .minus => f.sign

/-- The letters that follow `j`, `c` or `r` in a conditional mnemonic. -/
def Condition.suffix : Condition → String
  | .notZero => "nz"
  | .zero => "z"
  | .noCarry => "nc"
  | .carry => "c"
  | .parityOdd => "po"
  | .parityEven => "pe"
  | .plus => "p"
  | .minus => "m"

def Condition.code : Condition → Digit
  | .notZero => digit 0
  | .zero => digit 1
  | .noCarry => digit 2
  | .carry => digit 3
  | .parityOdd => digit 4
  | .parityEven => digit 5
  | .plus => digit 6
  | .minus => digit 7

def Condition.ofCode : Digit → Condition
  | 0 => .notZero
  | 1 => .zero
  | 2 => .noCarry
  | 3 => .carry
  | 4 => .parityOdd
  | 5 => .parityEven
  | 6 => .plus
  | 7 => .minus

theorem Condition.ofCode_code (c : Condition) : Condition.ofCode c.code = c := by
  cases c <;> rfl

theorem Condition.code_ofCode (n : Digit) : (Condition.ofCode n).code = n := by
  revert n
  decide

end I8080
