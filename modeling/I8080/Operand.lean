import I8080.Register

namespace I8080

/-- An operand as it is written, before anything is known about its instruction. -/
inductive Operand where
  | name (text : String)
  | value (n : Int)
  deriving DecidableEq

/-- Which register pairs an instruction takes. -/
inductive PairClass where
  | any
  | stack
  | index
  deriving DecidableEq

def PairClass.allows : PairClass → RegPair → Bool
  | .any, pair => pair ≠ .psw
  | .stack, pair => pair ≠ .sp
  | .index, pair => pair = .bc ∨ pair = .de

/-- What a mnemonic wants to stand in one operand place. -/
inductive OperandKind where
  | register
  | pair (allowed : PairClass)
  | byte
  | word
  | address
  | vector
  deriving DecidableEq

def OperandKind.describe : OperandKind → String
  | .register => "register"
  | .pair .any => "register pair"
  | .pair .stack => "stack register pair"
  | .pair .index => "index register pair"
  | .byte => "8-bit value"
  | .word => "16-bit value"
  | .address => "address"
  | .vector => "restart vector"

/-- Whether the operand is a word in the two bytes after the opcode, so that a label can stand for it. -/
def OperandKind.isWord : OperandKind → Bool
  | .word | .address => true
  | _ => false

/-- What an operand of each kind means once it has been read. -/
@[reducible] def OperandKind.Value : OperandKind → Type
  | .register => Loc
  | .pair _ => RegPair
  | .byte => UInt8
  | .word | .address => UInt16
  | .vector => Digit

/-- One value for each kind of a list, in order. -/
@[reducible] def OperandKind.Values : List OperandKind → Type
  | [] => Unit
  | kind :: kinds => kind.Value × OperandKind.Values kinds

end I8080
