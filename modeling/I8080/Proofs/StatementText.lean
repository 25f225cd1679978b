import I8080.Operand
import I8080.Proofs.Decimal
import I8080.Proofs.Line

namespace I8080

/-- How an operand is written: a name as it is, a number in decimal. -/
def Operand.text : Operand → String
  | .name text => text
  | .value n => toString n

def Operand.token : Operand → Token.Kind
  | .name _ => .ident
  | .value _ => .number

/-- Whether the text of an operand is a token that stands for it. -/
def Operand.Written : Operand → Prop
  | .name text => IsWord .ident text.toList
  | .value n => -0x8000000000000000 < n ∧ n < 0x8000000000000000

/-- A line of source text with a mnemonic and its operands. -/
def statementText (mnemonic : String) (operands : List Operand) : String :=
  mnemonic ++ " " ++ ", ".intercalate (operands.map Operand.text)

/-- The tokens of operands with a comma and a blank between them, of which the first starts at byte `start`. -/
def operandTokens : Nat → List Operand → List Token
  | _, [] => []
  | start, o :: os => ⟨o.token, o.text.toList, start⟩ :: operandTokens (start + byteLength o.text.toList + 2) os

theorem Token.opening_minus {next : Option Char} (digit : next.any Char.isDigit = true) :
    Token.opening '-' next = (.number, Char.isAlphanum) := by
  have blank : isSeparator '-' = false := by decide
  simp [Token.opening, blank, digit]

theorem isWord_toDigits (n : Nat) : IsWord .number (Nat.toDigits 10 n) := by
  have digits := isDigit_toDigits n
  obtain ⟨c, cs, split⟩ := List.exists_cons_of_ne_nil (Nat.toDigits_ne_nil (b := 10) (n := n))
  rw [split] at digits ⊢
  refine .number (digits c List.mem_cons_self) fun d hd => ?_
  simp [Char.isAlphanum, digits d (List.mem_cons_of_mem _ hd)]

/-- A sign goes with the number after it. -/
theorem IsWord.tokenizeFrom_minus {word rest : List Char} (h : IsWord .number word)
    (stop : ∀ d ∈ rest.head?, isIdentRest d = false) (start : Nat) :
    I8080.tokenizeFrom start ('-' :: word ++ rest) =
      ⟨.number, '-' :: word, start⟩ :: I8080.tokenizeFrom (start + byteLength ('-' :: word)) rest := by
  cases h with
  | @number c cs first inside =>
    refine tokenizeFrom_append (Token.opening_minus (by simp [first])) ?_ fun d hd =>
      isAlphanum_of_isIdentRest (stop d hd)
    exact List.forall_mem_cons.mpr ⟨by simp [Char.isAlphanum, first], inside⟩

/-- The text of an operand is one token where no letter or digit follows. -/
theorem Operand.Written.tokenizeFrom {o : Operand} (h : o.Written) {rest : List Char}
    (stop : ∀ d ∈ rest.head?, isIdentRest d = false) (start : Nat) :
    tokenizeFrom start (o.text.toList ++ rest) =
      ⟨o.token, o.text.toList, start⟩ :: I8080.tokenizeFrom (start + byteLength o.text.toList) rest := by
  cases o with
  | name text => exact IsWord.tokenizeFrom h stop start
  | value n =>
    rw [Operand.text, Operand.token, toList_toString]
    split
    next => exact (isWord_toDigits _).tokenizeFrom stop start
    next => exact (isWord_toDigits _).tokenizeFrom_minus stop start

theorem Operand.Written.newline_not_mem {o : Operand} (h : o.Written) : '\n' ∉ o.text.toList := by
  cases o with
  | name text => exact IsWord.newline_not_mem h
  | value n =>
    rw [Operand.text, toList_toString]
    split
    next => exact (isWord_toDigits _).newline_not_mem
    next =>
      rw [List.mem_cons, not_or]
      exact ⟨by decide, (isWord_toDigits _).newline_not_mem⟩

/-- An operand does not begin with a separator. -/
theorem Operand.Written.head_separator {o : Operand} (h : o.Written) (rest : List Char) :
    ∀ d ∈ (o.text.toList ++ rest).head?, isSeparator d = false := by
  have head {kind : Token.Kind} {word : List Char} (h : IsWord kind word) :
      ∀ d ∈ (word ++ rest).head?, isSeparator d = false := by
    obtain ⟨c, cs, rfl, hc⟩ := h.head_isIdentRest
    intro d hd
    cases Option.some.inj hd
    exact isSeparator_of_isIdentRest hc
  cases o with
  | name text => exact head h
  | value n =>
    rw [Operand.text, toList_toString]
    split
    next => exact head (isWord_toDigits _)
    next =>
      intro d hd
      cases Option.some.inj hd
      decide

theorem operand_isMeaningful (o : Operand) (start : Nat) :
    Token.isMeaningful ⟨o.token, o.text.toList, start⟩ = true := by
  cases o <;> rfl

/-- The text of operands with a comma and a blank between them. -/
def operandRow (os : List Operand) : List Char :=
  [',', ' '].intercalate (os.map fun o => o.text.toList)

theorem operandRow_cons (o next : Operand) (os : List Operand) :
    operandRow (o :: next :: os) = o.text.toList ++ ',' :: [' '] ++ operandRow (next :: os) := by
  simp [operandRow, List.intercalate_cons_cons]

theorem operandRow_eq_append (o : Operand) (os : List Operand) :
    ∃ after, operandRow (o :: os) = o.text.toList ++ after := by
  cases os with
  | nil => exact ⟨[], by simp [operandRow]⟩
  | cons next os => exact ⟨_, (operandRow_cons o next os).trans (List.append_assoc _ _ _)⟩

theorem head_operandRow {o : Operand} (h : o.Written) (os : List Operand) :
    ∀ d ∈ (operandRow (o :: os)).head?, isSeparator d = false := by
  obtain ⟨after, row⟩ := operandRow_eq_append o os
  rw [row]
  exact h.head_separator after

/-- The tokens of a row of operands that mean something are those of the operands. -/
theorem tokenizeFrom_operandRow {os : List Operand} (written : ∀ o ∈ os, o.Written) (start : Nat) :
    (tokenizeFrom start (operandRow os)).filter Token.isMeaningful = operandTokens start os := by
  induction os generalizing start with
  | nil => simp [operandRow, operandTokens, tokenizeFrom_nil]
  | cons o os ih =>
    rw [List.forall_mem_cons] at written
    cases os with
    | nil =>
      have single : operandRow [o] = o.text.toList ++ [] := by simp [operandRow]
      rw [single, written.1.tokenizeFrom (by simp), tokenizeFrom_nil,
        List.filter_cons_of_pos (operand_isMeaningful o start)]
      rfl
    | cons next os =>
      have blank : tokenizeFrom (start + byteLength o.text.toList) (',' :: [' '] ++ operandRow (next :: os)) = _ :=
        tokenizeFrom_append (Token.opening_blank (by decide) _) (List.forall_mem_singleton.mpr (by decide))
          (head_operandRow (written.2 next List.mem_cons_self) os)
      rw [operandRow_cons, List.append_assoc, written.1.tokenizeFrom (by simp [isIdentRest]), blank,
        List.filter_cons_of_pos (operand_isMeaningful o start), List.filter_cons_of_neg (by simp [Token.isMeaningful]),
        ih written.2]
      rfl

theorem newline_not_mem_operandRow {os : List Operand} (written : ∀ o ∈ os, o.Written) : '\n' ∉ operandRow os := by
  induction os with
  | nil => simp [operandRow]
  | cons o os ih =>
    rw [List.forall_mem_cons] at written
    cases os with
    | nil => simpa [operandRow] using written.1.newline_not_mem
    | cons next os =>
      rw [operandRow_cons, List.append_assoc, List.mem_append, not_or]
      exact ⟨written.1.newline_not_mem, by simpa using ih written.2⟩

theorem toList_statementText (mnemonic : String) (operands : List Operand) :
    (statementText mnemonic operands).toList = mnemonic.toList ++ ' ' :: operandRow operands := by
  simp [statementText, operandRow, String.toList_intercalate, Function.comp_def]

/-- The tokens of a statement with such operands. -/
def statementTokens (mnemonic : String) (operands : List Operand) : List Token :=
  ⟨.ident, mnemonic.toList, 0⟩ :: operandTokens (byteLength mnemonic.toList + 1) operands

section Line

variable {mnemonic : String} {operands : List Operand} (ident : IsWord .ident mnemonic.toList)
  (written : ∀ o ∈ operands, o.Written)

include ident written

theorem tokenize_statementText :
    (tokenize (statementText mnemonic operands).toList).filter Token.isMeaningful =
      statementTokens mnemonic operands := by
  have outside : ∀ d ∈ (operandRow operands).head?, isSeparator d = false := by
    cases operands with
    | nil => simp [operandRow]
    | cons o os => exact head_operandRow (written o List.mem_cons_self) os
  have blank : tokenizeFrom (0 + byteLength mnemonic.toList) ([' '] ++ operandRow operands) = _ :=
    tokenizeFrom_append (Token.opening_blank (by decide) _) (fun _ h => absurd h List.not_mem_nil) outside
  rw [toList_statementText, tokenize, ident.tokenizeFrom (by simp [isIdentRest])]
  rw [List.singleton_append] at blank
  rw [blank, List.filter_cons_of_pos (by rfl), List.filter_cons_of_neg (by simp [Token.isMeaningful]),
    tokenizeFrom_operandRow written, Nat.zero_add]
  rfl

theorem sourceLines_statementText :
    sourceLines (statementText mnemonic operands).toList = [⟨1, statementTokens mnemonic operands⟩] := by
  have single : '\n' ∉ (statementText mnemonic operands).toList := by
    rw [toList_statementText, List.mem_append, not_or]
    exact ⟨ident.newline_not_mem, by simpa using newline_not_mem_operandRow written⟩
  have tokens := tokenize_statementText ident written
  rw [sourceLines_splitOn, List.splitOn_eq_singleton single, lineTokens, lineTokens, numberedLines_single,
    ← tokenize, tokens]
  rfl

end Line

end I8080
