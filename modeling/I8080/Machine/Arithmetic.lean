import I8080.AluOp
import I8080.Flags

namespace I8080

/-- What an operation between the accumulator `a` and a byte leaves in the accumulator and the flags.
Subtraction wraps, so that a borrow shows as a result above `0xFF`. -/
def AluOp.apply (op : AluOp) (carry : Bool) (a value : UInt8) : UInt8 × Flags :=
  let arithmetic := fun raw : UInt16 => (raw.toUInt8, Flags.ofResult raw)
  let logic := fun result : UInt8 => (result, Flags.ofLogic result)
  let x := a.toUInt16
  let y := value.toUInt16
  match op with
  | .add => arithmetic (x + y)
  | .adc => arithmetic (x + y + carry.toUInt16)
  | .sub => arithmetic (x - y)
  | .sbb => arithmetic (x - y - carry.toUInt16)
  | .ana => logic (a &&& value)
  | .xra => logic (a ^^^ value)
  | .ora => logic (a ||| value)
  | .cmp => (a, Flags.ofResult (x - y))

/-- The flags after a counting instruction, which keeps the carry. -/
def Flags.counted (f : Flags) (raw : UInt16) : Flags :=
  { Flags.ofResult raw with carry := f.carry }

/-- Turns a binary sum of two packed decimal bytes into their decimal sum: a digit above nine, or one that
has carried, is corrected by six. -/
def decimalAdjust (f : Flags) (a : UInt8) : UInt8 × Flags :=
  let low := a % 16
  let high := a / 16
  let carry := f.carry || 9 < high || (9 ≤ high && 9 < low)
  let correction : UInt16 := (if f.aux || 9 < low then 0x06 else 0) + (if carry then 0x60 else 0)
  let raw := a.toUInt16 + correction
  (raw.toUInt8, { Flags.ofResult raw with carry })

def highBit (b : UInt8) : Bool :=
  0x80 ≤ b

def lowBit (b : UInt8) : Bool :=
  b % 2 == 1

def shiftLeft (b : UInt8) (bit : Bool) : UInt8 :=
  2 * b + bit.toUInt8

def shiftRight (bit : Bool) (b : UInt8) : UInt8 :=
  0x80 * bit.toUInt8 + b / 2

end I8080
