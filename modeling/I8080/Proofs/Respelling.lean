import I8080.Proofs.Lexeme
import I8080.Proofs.StatementView

namespace I8080

theorem Token.kind_eq_of_lexeme {t u : Token} (h : t.lexeme = u.lexeme) : t.kind = u.kind :=
  congrArg Prod.fst h

theorem Token.text_eq_of_lexeme {t u : Token} (h : t.lexeme = u.lexeme) : t.text = u.text :=
  congrArg Prod.snd h

theorem Token.name_eq_of_lexeme {t u : Token} (h : t.lexeme = u.lexeme) : t.name = u.name :=
  congrArg String.ofList (Token.text_eq_of_lexeme h)

/-- The view that looks at errors and at no place in the source, where labels may go by other names. -/
def View.relabel (f : String → String) (injective : Function.Injective f) : View where
  Place := Unit
  Remark := AsmError
  rename := f
  injective := injective
  place := fun _ => ()
  remark := Complaint.error
  remark_eq := fun _ _ _ _ => rfl

/-- An operand in its place and another that serves there as well. A name in the place of a word is a label, which may
go by another name; all else has the same text. -/
structure Respells (f : String → String) (a b : OperandKind × Token) : Prop where
  place : b.1 = a.1
  operand : a.2.isOperand = true
  kind : b.2.kind = a.2.kind
  text : ¬(a.2.kind = .ident ∧ a.1.isWord = true) → b.2.text = a.2.text
  name : a.2.kind = .ident → a.1.isWord = true → b.2.name = f a.2.name

/-- A mnemonic and its operands, and another row of tokens that is to be read the same. -/
structure Restates (f : String → String) (head head' : Token) (operands operands' : List Token) : Prop where
  first : head.lexeme = head'.lexeme
  tokens : List.Forall₂ (fun t u => u.kind = t.kind ∧ (t.kind ≠ .ident → u.text = t.text)) operands operands'
  places (m : Mnemonic) (known : Mnemonic.find? head.name = some m) (arity : operands.length = m.arity)
    (clean : ∀ t ∈ operands, t.isOperand = true) :
    List.Forall₂ (Respells f) (m.kinds.zip operands) (m.kinds.zip operands')

namespace View

variable {f : String → String} {injective : Function.Injective f}

theorem operands_of_respells {a b : OperandKind × Token} (h : Respells f a b) :
    (relabel f injective).Operands Eq a b := by
  obtain ⟨_, t⟩ := a
  obtain ⟨kind, u⟩ := b
  obtain ⟨rfl, operand, same, text, name⟩ := h
  refine operands_of_tokens operand same rfl (fun _ => rfl) (fun number => ?_) name fun _ other => ?_
  · have text : u.text = t.text := text fun ⟨ident, _⟩ => nomatch number.symm.trans ident
    exact ⟨congrArg Literal.parse? text, congrArg (fun text => AsmError.malformedLiteral (String.ofList text)) text.symm⟩
  · exact congrArg (fun text => Operand.name (String.ofList text)) (text fun h => other h.2).symm

theorem states_of_respells {s t : Statement} (mnemonic : s.mnemonic = t.mnemonic)
    (length : s.operands.length = t.operands.length)
    (places : List.Forall₂ (Respells f) (s.mnemonic.kinds.zip s.operands) (t.mnemonic.kinds.zip t.operands)) :
    (relabel f injective).States s t := by
  refine states_of_operands Eq mnemonic rfl ?_ ?_ fun values others equal => ?_
  · exact List.ext_getElem (by rwa [List.length_map, List.length_map]) fun _ _ _ => rfl
  · exact places.imp fun _ _ => operands_of_respells
  · rw [List.forall₂_eq_eq_eq] at equal
    subst equal
    cases hm : s.mnemonic.instr values with
    | error e => exact .error ⟨rfl, fun _ => AsmError.rename_of_labelName? (Mnemonic.instr_error hm)⟩
    | ok i => exact .ok rfl

theorem ofTokens_of_restates {head head' : Token} {operands operands' : List Token}
    (h : Restates f head head' operands operands') :
    Alike (relabel f injective).Complains (relabel f injective).States (Statement.ofTokens head operands)
      (Statement.ofTokens head' operands') := by
  have name := Token.name_eq_of_lexeme h.first
  refine ofTokens_of_strays ⟨(Token.kind_eq_of_lexeme h.first).symm, fun _ => ?_⟩ ?_ ?_ ?_ rfl ?_
  · exact congrArg AsmError.unexpectedToken name
  · refine h.tokens.imp fun t u same => ⟨same.1, fun stray => ?_⟩
    exact congrArg (fun text => AsmError.unexpectedToken (String.ofList text)) (same.2 stray).symm
  · rw [name]
  · exact congrArg AsmError.unknownMnemonic name
  · intro m arity arity' known clean
    exact states_of_respells rfl (arity.trans arity'.symm) (h.places m known arity clean)

end View

end I8080
