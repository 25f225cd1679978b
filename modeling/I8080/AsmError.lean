import I8080.Operand
import I8080.Text.Format

namespace I8080

/-- What would have fitted where an operand of the wrong shape stands. -/
inductive Expectation where
  | register
  | pair
  | literal
  | literalOrLabel
  | notBothMemory
  | otherKind
  deriving DecidableEq

def Expectation.text : Expectation → String
  | .register => "a register"
  | .pair => "a register pair"
  | .literal => "a numeric literal"
  | .literalOrLabel => "a numeric literal or label"
  | .notBothMemory => "a register, as both operands cannot be m"
  | .otherKind => "operands of another kind"

/-- Why a source line does not assemble. -/
inductive AsmError where
  | unknownMnemonic (name : String)
  | wrongArity (mnemonic : String) (expected found : Nat)
  | unknownRegister (mnemonic name : String) (expected : OperandKind)
  | invalidOperand (mnemonic : String) (expected : Expectation)
  | malformedLiteral (text : String)
  | literalOutOfRange (value : Int) (bits : Nat)
  | unexpectedToken (text : String)
  | duplicateLabel (name : String)
  | unresolvedLabel (name : String)
  | programTooLarge (offset : Nat)
  deriving DecidableEq

def quoted (s : String) : String :=
  "'" ++ s ++ "'"

def AsmError.message : AsmError → String
  | .unknownMnemonic name => "unknown instruction " ++ quoted name
  | .wrongArity mnemonic expected found =>
    let plural := if expected = 1 then "" else "s"
    quoted mnemonic ++ " takes " ++ toString expected ++ " operand" ++ plural ++ ", found " ++ toString found
  | .unknownRegister mnemonic name expected =>
    quoted name ++ " is not a valid " ++ expected.describe ++ " for " ++ quoted mnemonic
  | .invalidOperand mnemonic expected => quoted mnemonic ++ " expects " ++ expected.text ++ " here"
  | .malformedLiteral text => "malformed numeric literal " ++ quoted text
  | .literalOutOfRange value bits =>
    "literal " ++ toString value ++ " does not fit in " ++ toString bits ++ " bits"
  | .unexpectedToken text => "unexpected token " ++ quoted text
  | .duplicateLabel name => "label " ++ quoted name ++ " is already defined"
  | .unresolvedLabel name => "label " ++ quoted name ++ " is never defined"
  | .programTooLarge offset =>
    "instruction at offset 0x" ++ String.ofList (Hex.digits 4 offset) ++ " does not fit in memory"

/-- The stable identifier of a kind of error. -/
def AsmError.code : AsmError → String
  | .unknownMnemonic _ => "asm::unknown_mnemonic"
  | .wrongArity .. => "asm::arity"
  | .unknownRegister .. => "asm::register"
  | .invalidOperand .. => "asm::operand"
  | .malformedLiteral _ => "asm::bad_lit"
  | .literalOutOfRange .. => "asm::lit_range"
  | .unexpectedToken _ => "asm::unexpected_token"
  | .duplicateLabel _ => "asm::duplicate_label"
  | .unresolvedLabel _ => "asm::unresolved_label"
  | .programTooLarge _ => "asm::too_large"

def AsmError.help : AsmError → String
  | .unknownMnemonic _ => "check the list of supported 8080 instructions"
  | .wrongArity .. => "check the number of operands for this instruction"
  | .unknownRegister .. => "registers are a, b, c, d, e, h, l and m; pairs are b, d, h, sp and psw"
  | .invalidOperand .. => "check the type of operands allowed for this instruction"
  | .malformedLiteral _ => "literals are decimal (12), hex (0x0c or 0ch) or binary (0b1100)"
  | .literalOutOfRange .. =>
    "8-bit operands range from -128 to 255, 16-bit operands from -32768 to 65535"
  | .unexpectedToken _ =>
    "lines hold an optional `label:` followed by an instruction and its operands"
  | .duplicateLabel _ => "labels may only be defined once per file"
  | .unresolvedLabel _ => "define the label somewhere in the file with `name:`"
  | .programTooLarge _ => "the program must fit in the 0x0800-0x0baf memory window"

/-- The few words that stand under the place of an error. -/
def AsmError.label : AsmError → String
  | .unknownMnemonic _ => "unknown instruction"
  | .wrongArity .. => "wrong operand count"
  | .unknownRegister .. => "invalid register"
  | .invalidOperand .. => "invalid operand"
  | .malformedLiteral _ => "malformed literal"
  | .literalOutOfRange .. => "out-of-range literal"
  | .unexpectedToken _ => "unexpected token"
  | .duplicateLabel _ => "duplicate label"
  | .unresolvedLabel _ => "undefined label"
  | .programTooLarge _ => "past end of memory"

end I8080
