import I8080.Instr.Encoding
import I8080.AsmError

namespace I8080

/-- The value of an operand when its kind is forgotten. -/
inductive Argument where
  | loc (loc : Loc)
  | pair (p : RegPair)
  | byte (b : UInt8)
  | word (w : UInt16)

def OperandKind.argument : (kind : OperandKind) → kind.Value → Argument
  | .register, loc => .loc loc
  | .pair _, p => .pair p
  | .byte, b => .byte b
  | .word, w | .address, w => .word w
  | .vector, v => .byte (UInt8.ofNat v.val)

def OperandKind.arguments : (kinds : List OperandKind) → OperandKind.Values kinds → List Argument
  | [], _ => []
  | kind :: kinds, (value, values) => kind.argument value :: OperandKind.arguments kinds values

/-- How an instruction is made of arguments when nothing is known of their kinds. -/
inductive Form where
  | fixed (i : Instr)
  | mov
  | mvi
  | lxi
  | ofLoc (make : Loc → Instr)
  | ofPair (make : RegPair → Instr)
  | ofByte (make : UInt8 → Instr)
  | ofWord (make : UInt16 → Instr)

/-- The instruction of a form and two arguments, or the position of the one to blame and what would have fitted
there. -/
def Form.instr : Form → Argument → Argument → Except (Nat × Expectation) Instr
  | .fixed i, _, _ => .ok i
  | .mov, .loc .mem, .loc .mem => .error (1, .notBothMemory)
  | .mov, .loc dest, .loc src => .ok (.mov dest src)
  | .mvi, .loc dest, .byte value => .ok (.mvi dest value)
  | .lxi, .pair p, .word value => .ok (.lxi p value)
  | .ofLoc make, .loc loc, _ => .ok (make loc)
  | .ofPair make, .pair p, _ => .ok (make p)
  | .ofByte make, .byte b, _ => .ok (make b)
  | .ofWord make, .word w, _ => .ok (make w)
  | _, _, _ => .error (0, .otherKind)

/-- An entry of the instruction table: a name, the operands it takes, and how they make an instruction. Operands
that are fine one by one may still make none together. -/
structure Mnemonic where
  name : String
  kinds : List OperandKind
  form : Form

/-- What the form of an entry makes of values. A place that no value takes holds zero. -/
def Mnemonic.build (m : Mnemonic) (values : OperandKind.Values m.kinds) : Except (Nat × Expectation) Instr :=
  let arguments := OperandKind.arguments m.kinds values
  m.form.instr (arguments.getD 0 (.byte 0)) (arguments.getD 1 (.byte 0))

def Mnemonic.arity (m : Mnemonic) : Nat :=
  m.kinds.length

/-- An error in the operands of a mnemonic and the position of the operand to blame. -/
structure OperandError where
  operand : Nat
  error : AsmError
  deriving DecidableEq

def readNumber (n low high : Int) (bits : Nat) : Except AsmError Int :=
  if low ≤ n ∧ n ≤ high then .ok n else .error (.literalOutOfRange n bits)

/-- Reads one operand as a value of its kind. A number may be negative where it still fits the width. -/
def OperandKind.read (mnemonic : String) : (kind : OperandKind) → Operand → Except AsmError kind.Value
  | .register, .name text =>
    match Loc.ofName? text with
    | some loc => .ok loc
    | none => .error (.unknownRegister mnemonic text .register)
  | .register, .value _ => .error (.invalidOperand mnemonic .register)
  | .pair allowed, .name text =>
    match (RegPair.ofName? text).filter allowed.allows with
    | some p => .ok p
    | none => .error (.unknownRegister mnemonic text (.pair allowed))
  | .pair _, .value _ => .error (.invalidOperand mnemonic .pair)
  | .byte, .value n => (readNumber n (-128) 255 8).map UInt8.ofInt
  | .byte, .name _ => .error (.invalidOperand mnemonic .literal)
  | .word, .value n | .address, .value n => (readNumber n (-32768) 65535 16).map UInt16.ofInt
  | .word, .name _ | .address, .name _ => .error (.invalidOperand mnemonic .literalOrLabel)
  | .vector, .value n => (readNumber n 0 7 3).map fun vector => digit vector.toNat
  | .vector, .name _ => .error (.invalidOperand mnemonic .literal)

/-- Reads as many operands as there are kinds, from left to right, up to the first that does not fit.
The first of them stands at position `start`. -/
def OperandKind.readAll (mnemonic : String) (start : Nat) :
    (kinds : List OperandKind) → (operands : List Operand) → operands.length = kinds.length →
      Except OperandError (OperandKind.Values kinds)
  | [], _, _ => .ok ()
  | kind :: kinds, operand :: operands, h =>
    match kind.read mnemonic operand with
    | .error error => .error ⟨start, error⟩
    | .ok value =>
      (OperandKind.readAll mnemonic (start + 1) kinds operands (Nat.succ.inj h)).map (value, ·)

/-- The instruction made of a mnemonic and its operands. -/
def Mnemonic.instr (m : Mnemonic) (operands : List Operand) : Except OperandError Instr :=
  if h : operands.length = m.arity then
    match OperandKind.readAll m.name 0 m.kinds operands h with
    | .error error => .error error
    | .ok values =>
      match m.build values with
      | .ok i => .ok i
      | .error (operand, expected) => .error ⟨operand, .invalidOperand m.name expected⟩
  else .error ⟨0, .wrongArity m.name m.arity operands.length⟩

end I8080
