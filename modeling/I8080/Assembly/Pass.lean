import I8080.Assembly.Statement
import I8080.Window

namespace I8080

/-- An instruction in the image and the source text that it comes from. -/
structure Entry where
  line : Nat
  span : Span
  offset : Nat
  size : Nat
  deriving DecidableEq

/-- A word in the image that waits for the address of a label. Its low byte is at `offset`. -/
structure Fixup extends Reference where
  line : Nat
  offset : Nat
  deriving DecidableEq

/-- How far the first pass has come. The next instruction goes to `offset`. -/
structure Pass where
  image : Image := .blank
  labels : LabelTable := {}
  offset : Nat := 0
  listing : Array Entry := #[]
  fixups : Array Fixup := #[]
  diagnostics : Array Diagnostic := #[]

def Pass.report (p : Pass) (line : Nat) (c : Complaint) : Pass :=
  { p with diagnostics := p.diagnostics.push { c with line } }

/-- Gives a label the address of the next instruction. -/
def Pass.define (p : Pass) (name : Token) : Except Complaint Pass :=
  match p.labels.insert? name.name (addressOf p.offset) with
  | some labels => .ok { p with labels }
  | none => .error ⟨name.span, .duplicateLabel name.name⟩

/-- Puts a statement's instruction into the image. A word operand directly follows the opcode. -/
def Pass.emit (p : Pass) (line : Nat) (s : Statement) : Except Complaint Pass := do
  let bytes := (← s.instr p.labels).encode
  if p.offset + bytes.length ≤ windowSize then
    let fixups := match s.reference? p.labels with
      | some reference => p.fixups.push { reference with line, offset := p.offset + 1 }
      | none => p.fixups
    return { p with
      image := p.image.write p.offset bytes
      offset := p.offset + bytes.length
      listing := p.listing.push ⟨line, s.span, p.offset, bytes.length⟩
      fixups }
  else throw ⟨s.span, .programTooLarge p.offset⟩

def Pass.body (p : Pass) (line : SourceLine) : Except Complaint Pass :=
  match line.body with
  | [] => .ok p
  | head :: operands => do p.emit line.number (← Statement.ofTokens head operands)

/-- Takes in one source line. A line that fails leaves a diagnostic, and the label it has defined. -/
def Pass.line (p : Pass) (line : SourceLine) : Pass :=
  let labelled := match line.label? with
    | some name => p.define name
    | none => .ok p
  match labelled with
  | .error c => p.report line.number c
  | .ok q =>
    match q.body line with
    | .error c => q.report line.number c
    | .ok r => r

/-- Fills in the address of a label now that all are known; a label that was never defined stays 0. -/
def Pass.resolve (p : Pass) (f : Fixup) : Pass :=
  match p.labels.get? f.name with
  | some address => { p with image := p.image.write f.offset [Word.low address, Word.high address] }
  | none => p.report f.line ⟨f.span, .unresolvedLabel f.name⟩

end I8080
