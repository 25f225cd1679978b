import I8080.Text.Numeral

namespace I8080

inductive Switch where
  | minimal
  | trace
  | steps
  | help
  | version
  deriving DecidableEq

def Switch.name : Switch → String
  | .minimal => "minimal"
  | .trace => "trace"
  | .steps => "steps"
  | .help => "help"
  | .version => "version"

def Switch.letter : Switch → Char
  | .minimal => 'm'
  | .trace => 't'
  | .steps => 's'
  | .help => 'h'
  | .version => 'V'

/-- What may stand on a command line: switches, and some number of operands. -/
structure Usage where
  switches : List Switch
  operands : Nat

/-- What stands on a command line. `awaiting` is set while the number after `--steps` is still to come. -/
structure Arguments where
  operands : List String := []
  minimal : Bool := false
  trace : Bool := false
  steps : Option Nat := none
  awaiting : Bool := false
  deriving DecidableEq

/-- Why a command line is not read to its end. -/
inductive Interruption where
  | help
  | version
  | misuse
  deriving DecidableEq

def Arguments.addOperand (a : Arguments) (u : Usage) (text : String) : Except Interruption Arguments :=
  if text ≠ "" ∧ a.operands.length < u.operands then .ok { a with operands := a.operands ++ [text] }
  else .error .misuse

def Arguments.setSteps (a : Arguments) (digits : List Char) : Except Interruption Arguments :=
  match a.steps, Numeral.unsigned? digits with
  | none, some n => .ok { a with steps := some n, awaiting := false }
  | _, _ => .error .misuse

/-- Takes in a switch without a value. No switch may stand twice. -/
def Arguments.setSwitch (a : Arguments) : Switch → Except Interruption Arguments
  | .minimal => if a.minimal then .error .misuse else .ok { a with minimal := true }
  | .trace => if a.trace then .error .misuse else .ok { a with trace := true }
  | .steps => .ok { a with awaiting := true }
  | .help => .error .help
  | .version => .error .version

/-- Takes in a word that begins with two hyphens, given without them. -/
def Arguments.addLong (a : Arguments) (u : Usage) (text : List Char) : Except Interruption Arguments :=
  let name := String.ofList (text.takeWhile (· ≠ '='))
  match u.switches.find? fun s => s.name == name, text.dropWhile (· ≠ '=') with
  | some s, [] => a.setSwitch s
  | some .steps, _ :: digits => a.setSteps digits
  | _, _ => .error .misuse

/-- Takes in a word of switch letters, given without its hyphen. What follows the letter of a switch with
a value is that value. -/
def Arguments.addLetters (a : Arguments) (u : Usage) : List Char → Except Interruption Arguments
  | [] => .ok a
  | c :: cs =>
    match u.switches.find? fun s => s.letter == c, cs with
    | none, _ => .error .misuse
    | some .steps, '=' :: digits => a.setSteps digits
    | some .steps, d :: digits => a.setSteps (d :: digits)
    | some s, _ => do (← a.setSwitch s).addLetters u cs

/-- Reads a command line from left to right. After a word of two hyphens there are only operands. -/
def Arguments.read (u : Usage) (a : Arguments) : List String → Except Interruption Arguments
  | [] => if a.awaiting then .error .misuse else .ok a
  | word :: words =>
    match word.toList with
    | ['-', '-'] =>
      if a.awaiting then .error .misuse else words.foldlM (fun a word => a.addOperand u word) a
    | '-' :: '-' :: text =>
      if a.awaiting then .error .misuse else do Arguments.read u (← a.addLong u text) words
    | '-' :: c :: cs =>
      if a.awaiting then .error .misuse else do Arguments.read u (← a.addLetters u (c :: cs)) words
    | text => do
      let next ← if a.awaiting then a.setSteps text else a.addOperand u word
      Arguments.read u next words

end I8080
