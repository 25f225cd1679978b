import I8080.Display.Listing
import I8080.Proofs.Cursor

namespace I8080

/-- Work that may end in a complaint. It has no outcome at all when an operation in it is out of range. -/
abbrev Checked (α : Type) : Type :=
  ExceptT Complaint Option α

namespace Checked

/-- An operation that has to be in range. -/
def need {α : Type} (x : Option α) : Checked α :=
  ExceptT.lift x

/-- Nothing in the work is out of range, and this is what it comes to. -/
def Gives {α : Type} (x : Checked α) (result : Except Complaint α) : Prop :=
  x.run = some result

end Checked

open Checked

/-- A number that has to fit in a word. -/
def word? (n : Nat) : Option UInt16 :=
  if n < 65536 then some (UInt16.ofNat n) else none

/-- The negative of a 64-bit number, which has to be one too. -/
def negate? (n : Int64) : Option Int64 :=
  if n = Int64.minValue then none else some (-n)

/-- A row of digits as a 64-bit number, if its value is one. -/
def Literal.magnitude64? (digits : List Char) : Option Int64 :=
  ((Literal.magnitude? (digits.map Char.toLower)).filter (· ≤ 0x7FFFFFFFFFFFFFFF)).map Int64.ofNat

/-- A literal as a 64-bit number, if it is well-formed. -/
def Literal.parse64? (cs : List Char) : Option (Option Int64) :=
  match cs with
  | '-' :: digits =>
    match Literal.magnitude64? digits with
    | some n => (negate? n).map some
    | none => some none
  | digits => some (Literal.magnitude64? digits)

def Span.join? (s t : Span) : Option Span := do
  return ⟨min s.start t.start, ← sub? (max s.stop t.stop) (min s.start t.start)⟩

/-- Sets the byte at an offset, which has to lie in the image. -/
def Image.set? (image : Image) (offset : Nat) (b : UInt8) : Option Image :=
  if h : offset < windowSize then some (image.set offset b h) else none

/-- Copies bytes into the image, which has to have room for them. -/
def Image.copy? (image : Image) (start : Nat) (bytes : List UInt8) : Option Image :=
  if start + bytes.length ≤ windowSize then some (image.write start bytes) else none

def Image.slice? (image : Image) (start stop : Nat) : Option (List UInt8) := do
  let length ← sub? stop start
  if stop ≤ windowSize then return image.slice start length else none

def Mark.name? (source : List Char) (m : Mark) : Option String :=
  (m.text? source).map String.ofList

def Mark.isOperand (m : Mark) : Bool :=
  m.kind = .ident ∨ m.kind = .number

/-- The mnemonic of a statement, once the number of its operands is right, and the text from it through the last
of them. -/
def readStatement (source : List Char) (head : Mark) (operands : List Mark) : Checked (Mnemonic × Span) := do
  if head.kind ≠ .ident then throw ⟨head.span, .unexpectedToken (← need (head.name? source))⟩
  else match operands.find? fun m => !m.isOperand with
    | some m => throw ⟨m.span, .unexpectedToken (← need (m.name? source))⟩
    | none =>
      let name ← need (head.name? source)
      match Mnemonic.find? name with
      | none => throw ⟨head.span, .unknownMnemonic name⟩
      | some m =>
        let span ← need ((head :: operands).foldlM (fun span t => span.join? t.span) head.span)
        if operands.length = m.arity then return (m, span)
        else throw ⟨span, .wrongArity m.name m.arity operands.length⟩

/-- What an operand stands for, and the reference to its label if that has no address. -/
def readOperand (source : List Char) (labels : LabelTable) (kind : OperandKind) (m : Mark) :
    Checked (Operand × Option Reference) := do
  let text ← need (m.text? source)
  if m.kind = .number then
    match ← need (Literal.parse64? text) with
    | some n => return (.value n.toInt, none)
    | none => throw ⟨m.span, .malformedLiteral (String.ofList text)⟩
  else if kind.isWord then
    match labels.get? (String.ofList text) with
    | some address => return (.value address.toNat, none)
    | none => return (.value 0, some ⟨String.ofList text, m.span⟩)
  else return (.name (String.ofList text), none)

/-- Reads operands into a row of `places`, from place `start` on. There has to be one for each kind. -/
def OperandKind.readInto? (places : Nat) (mnemonic : String) (start : Nat) :
    (kinds : List OperandKind) → List Operand → Option (Except OperandError (OperandKind.Values kinds))
  | [], _ => some (.ok ())
  | _ :: _, [] => none
  | kind :: kinds, operand :: operands =>
    match kind.read mnemonic operand with
    | .error error => some (.error ⟨start, error⟩)
    | .ok value =>
      if start < places then
        (OperandKind.readInto? places mnemonic (start + 1) kinds operands).map fun values => values.map (value, ·)
      else none

/-- The instruction made of a mnemonic and its operands, of which there is room for two. -/
def Mnemonic.instr? (m : Mnemonic) (operands : List Operand) : Option (Except OperandError Instr) :=
  if operands.length = m.arity then
    (OperandKind.readInto? 2 m.name 0 m.kinds operands).map fun
      | .error error => .error error
      | .ok values =>
        match m.build values with
        | .ok i => .ok i
        | .error (operand, expected) => .error ⟨operand, .invalidOperand m.name expected⟩
  else some (.error ⟨0, .wrongArity m.name m.arity operands.length⟩)

/-- The instruction of a statement. The operand that is to blame for an error has to be there. -/
def readInstr (m : Mnemonic) (marks : List Mark) (operands : List Operand) : Checked Instr := do
  match ← need (m.instr? operands) with
  | .ok i => return i
  | .error e => throw ⟨(← need marks[e.operand]?).span, e.error⟩

/-- Gives a label the address of the next instruction, whose offset has to be a word. -/
def Pass.checkedDefine (source : List Char) (p : Pass) (name : Mark) : Checked Pass := do
  let text ← need (name.name? source)
  let offset ← need (word? p.offset)
  match p.labels.insert? text (windowBase + offset) with
  | some labels => return { p with labels }
  | none => throw ⟨name.span, .duplicateLabel text⟩

/-- Puts a statement's instruction into the image. The last label without an address is the one to wait for. -/
def Pass.checkedEmit (source : List Char) (p : Pass) (line : Nat) (m : Mnemonic) (span : Span)
    (marks : List Mark) : Checked Pass := do
  let read ← (m.kinds.zip marks).mapM fun (kind, t) => readOperand source p.labels kind t
  let bytes := (← readInstr m marks (read.map Prod.fst)).encode
  if p.offset + bytes.length ≤ windowSize then
    let image ← need (p.image.copy? p.offset bytes)
    let offset ← need (word? p.offset)
    let fixups := match (read.filterMap Prod.snd).getLast? with
      | some reference => p.fixups.push { reference with line, offset := p.offset + 1 }
      | none => p.fixups
    return { p with
      image
      offset := p.offset + bytes.length
      listing := p.listing.push ⟨line, span, offset.toNat, bytes.length⟩
      fixups }
  else throw ⟨span, .programTooLarge p.offset⟩

def MarkedLine.label? (line : MarkedLine) : Option Mark :=
  match line.marks with
  | name :: colon :: _ => if name.kind = .ident ∧ colon.kind = .colon then some name else none
  | _ => none

def MarkedLine.body (line : MarkedLine) : List Mark :=
  if line.label?.isSome then line.marks.drop 2 else line.marks

def Pass.checkedBody (source : List Char) (p : Pass) (line : MarkedLine) : Checked Pass :=
  match line.body with
  | [] => pure p
  | head :: operands => do
    let (m, span) ← readStatement source head operands
    p.checkedEmit source line.number m span operands

/-- Takes in what a line holds after its label. -/
def Pass.checkedSettle (source : List Char) (p : Pass) (line : MarkedLine) : Option Pass := do
  match ← (p.checkedBody source line).run with
  | .error c => return p.report line.number c
  | .ok q => return q

/-- Takes in one line, as the places of its tokens. -/
def Pass.checkedLine (source : List Char) (p : Pass) (line : MarkedLine) : Option Pass :=
  match line.label? with
  | none => p.checkedSettle source line
  | some name => do
    match ← (p.checkedDefine source name).run with
    | .error c => return p.report line.number c
    | .ok q => q.checkedSettle source line

/-- Fills in the address of a label, one byte after the other. -/
def Pass.checkedResolve (p : Pass) (f : Fixup) : Option Pass :=
  match p.labels.get? f.name with
  | some address => do
    let half ← p.image.set? f.offset (Word.low address)
    let image ← half.set? (f.offset + 1) (Word.high address)
    return { p with image }
  | none => some (p.report f.line ⟨f.span, .unresolvedLabel f.name⟩)

/-- Assembles a source text, unless an operation on the way is out of range. -/
def checkedAssemble (source : String) : Option Assembly := do
  let marks ← (Cursor.ofText source.toList).marks?
  let first ← (markedLines 1 [] marks).foldlM (Pass.checkedLine source.toList) {}
  let last ← first.fixups.toList.foldlM Pass.checkedResolve first
  return {
    image := last.image
    diagnostics := last.diagnostics.toList.mergeSort fun d e => d.line ≤ e.line
    listing := last.listing.toList
    labels := last.labels }

/-- The line of a listing for one instruction, whose bytes have to lie in the image. -/
def Assembly.checkedEntryLine (a : Assembly) (entry : Entry) : Option String := do
  let bytes ← a.image.slice? entry.offset (entry.offset + entry.size)
  let offset ← word? entry.offset
  let text := match a.instr? entry with
    | some i => i.toText
    | none => "???"
  return dim (Column.right 4 (toString entry.line)) ++ "  " ++ hexWord (windowBase + offset) ++ "  " ++
    Column.left 8 (Hex.row bytes) ++ "  " ++ text ++ "\n"

/-- The instructions of a listing by address. -/
def Assembly.checkedEntries (a : Assembly) : Option (List String) :=
  a.listing.mapM a.checkedEntryLine

end I8080
