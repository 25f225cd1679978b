import I8080.Assembly.LabelTable
import I8080.Diagnostic
import I8080.Mnemonic.Table
import I8080.Source.Line
import I8080.Source.Literal

namespace I8080

/-- A mnemonic with the tokens of its operands, as many as it takes. -/
structure Statement where
  mnemonic : Mnemonic
  head : Token
  operands : List Token
  length_operands : operands.length = mnemonic.arity

/-- The source text from the mnemonic through the last operand. -/
def statementSpan (head : Token) (operands : List Token) : Span :=
  operands.foldl (fun span t => span.join t.span) head.span

def Statement.span (s : Statement) : Span :=
  statementSpan s.head s.operands

def Token.isOperand (t : Token) : Bool :=
  t.kind = .ident ∨ t.kind = .number

def Statement.ofTokens (head : Token) (operands : List Token) : Except Complaint Statement :=
  if head.kind ≠ .ident then .error ⟨head.span, .unexpectedToken head.name⟩
  else match operands.find? (fun t => !t.isOperand) with
    | some t => .error ⟨t.span, .unexpectedToken t.name⟩
    | none =>
      match Mnemonic.find? head.name with
      | none => .error ⟨head.span, .unknownMnemonic head.name⟩
      | some m =>
        if h : operands.length = m.arity then .ok ⟨m, head, operands, h⟩
        else .error ⟨statementSpan head operands, .wrongArity m.name m.arity operands.length⟩

/-- A label that is used before it has an address, and where. -/
structure Reference where
  name : String
  span : Span
  deriving DecidableEq

/-- What the token of an operand stands for. A name in the place of a word is a label, and 0 stands for it
while it has no address. -/
def Token.operand (t : Token) (labels : LabelTable) (kind : OperandKind) : Except Complaint Operand :=
  if t.kind = .number then
    match Literal.parse? t.text with
    | some n => .ok (.value n)
    | none => .error ⟨t.span, .malformedLiteral t.name⟩
  else if kind.isWord then .ok (.value ((labels.get? t.name).elim 0 fun address => address.toNat))
  else .ok (.name t.name)

def Token.reference? (t : Token) (labels : LabelTable) (kind : OperandKind) : Option Reference :=
  if t.kind ≠ .number ∧ kind.isWord ∧ labels.get? t.name = none then some ⟨t.name, t.span⟩ else none

/-- The label that the statement still waits for. No mnemonic takes more than one word. -/
def Statement.reference? (s : Statement) (labels : LabelTable) : Option Reference :=
  (s.mnemonic.kinds.zip s.operands).findSome? fun (kind, t) => t.reference? labels kind

def Statement.instr (s : Statement) (labels : LabelTable) : Except Complaint Instr := do
  let operands ← (s.mnemonic.kinds.zip s.operands).mapM fun (kind, t) => t.operand labels kind
  match s.mnemonic.instr operands with
  | .ok i => return i
  | .error e => throw ⟨(s.operands[e.operand]?.map Token.span).getD s.span, e.error⟩

end I8080
