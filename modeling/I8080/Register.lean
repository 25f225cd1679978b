import I8080.Word

namespace I8080

inductive Register where
  | a | b | c | d | e | h | l
  deriving DecidableEq

/-- The registers in the order in which they are shown. -/
def Register.all : List Register :=
  [.a, .b, .c, .d, .e, .h, .l]

def Register.name : Register → String
  | .a => "a"
  | .b => "b"
  | .c => "c"
  | .d => "d"
  | .e => "e"
  | .h => "h"
  | .l => "l"

/-- Where a byte operand lives: in a register, or in the memory cell that `HL` points at. -/
inductive Loc where
  | reg (r : Register)
  | mem
  deriving DecidableEq

def Loc.all : List Loc :=
  Register.all.map .reg ++ [.mem]

def Loc.name : Loc → String
  | .reg r => r.name
  | .mem => "m"

/-- Reads a location by its name, in either case. -/
def Loc.ofName? (name : String) : Option Loc :=
  Loc.all.find? fun loc => loc.name == name.toLower

/-- The octal digit that stands for a location in an opcode. -/
def Loc.code : Loc → Digit
  | .reg .b => digit 0
  | .reg .c => digit 1
  | .reg .d => digit 2
  | .reg .e => digit 3
  | .reg .h => digit 4
  | .reg .l => digit 5
  | .mem => digit 6
  | .reg .a => digit 7

def Loc.ofCode : Digit → Loc
  | 0 => .reg .b
  | 1 => .reg .c
  | 2 => .reg .d
  | 3 => .reg .e
  | 4 => .reg .h
  | 5 => .reg .l
  | 6 => .mem
  | 7 => .reg .a

theorem Loc.ofCode_code (loc : Loc) : Loc.ofCode loc.code = loc := by
  cases loc with
  | mem => rfl
  | reg r => cases r <;> rfl

theorem Loc.code_ofCode (n : Digit) : (Loc.ofCode n).code = n := by
  revert n
  decide

def Register.ofName? (name : String) : Option Register :=
  match Loc.ofName? name with
  | some (.reg r) => some r
  | _ => none

/-- The sixteen-bit pairs: three of two registers each, the stack pointer, and the program status word,
which is the accumulator above the flags. -/
inductive RegPair where
  | bc | de | hl | sp | psw
  deriving DecidableEq

def RegPair.all : List RegPair :=
  [.bc, .de, .hl, .sp, .psw]

/-- A register pair goes by the name of its high register. -/
def RegPair.name : RegPair → String
  | .bc => "b"
  | .de => "d"
  | .hl => "h"
  | .sp => "sp"
  | .psw => "psw"

/-- Reads a pair by its name, in either case. -/
def RegPair.ofName? (name : String) : Option RegPair :=
  RegPair.all.find? fun pair => pair.name == name.toLower

/-- The two bits that stand for a pair in an opcode. The stack pointer and the status word share a code:
which of them is meant depends on the instruction. -/
def RegPair.code : RegPair → Nat
  | .bc => 0
  | .de => 1
  | .hl => 2
  | .sp | .psw => 3

/-- The pair with a code, where the instruction says which pair `three` stands for. -/
def RegPair.ofCode (three : RegPair) : Nat → RegPair
  | 0 => .bc
  | 1 => .de
  | 2 => .hl
  | _ => three

end I8080
