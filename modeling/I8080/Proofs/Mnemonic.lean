import I8080.Mnemonic.Table
import I8080.Proofs.Except

namespace I8080

theorem Word.ofInt_toNat (w : UInt16) : UInt16.ofInt w.toNat = w := by
  apply UInt16.toNat_inj.mp
  have := w.toNat_lt
  simp only [UInt16.ofInt, UInt16.toNat_ofNat']
  omega

theorem Byte.ofInt_toNat (b : UInt8) : UInt8.ofInt b.toNat = b := by
  apply UInt8.toNat_inj.mp
  have := b.toNat_lt
  simp only [UInt8.ofInt, UInt8.toNat_ofNat']
  omega

theorem OperandKind.read_word (mnemonic : String) (w : UInt16) :
    OperandKind.read mnemonic .word (.value w.toNat) = .ok w := by
  have := w.toNat_lt
  rw [OperandKind.read, readNumber, if_pos (by omega)]
  exact congrArg Except.ok (Word.ofInt_toNat w)

theorem OperandKind.read_address (mnemonic : String) (w : UInt16) :
    OperandKind.read mnemonic .address (.value w.toNat) = .ok w :=
  OperandKind.read_word mnemonic w

theorem OperandKind.read_byte (mnemonic : String) (b : UInt8) :
    OperandKind.read mnemonic .byte (.value b.toNat) = .ok b := by
  have := b.toNat_lt
  rw [OperandKind.read, readNumber, if_pos (by omega)]
  exact congrArg Except.ok (Byte.ofInt_toNat b)

theorem OperandKind.read_vector (mnemonic : String) (v : Digit) :
    OperandKind.read mnemonic .vector (.value v.val) = .ok v := by
  have := v.isLt
  rw [OperandKind.read, readNumber, if_pos (by omega)]
  refine congrArg Except.ok (Fin.ext ?_)
  simp only [digit]
  omega

theorem OperandKind.readAll_cons_eq_ok {mnemonic : String} {start : Nat} {kind : OperandKind}
    {kinds : List OperandKind} {operand : Operand} {operands : List Operand}
    {length : (operand :: operands).length = (kind :: kinds).length} {values : OperandKind.Values (kind :: kinds)}
    (h : OperandKind.readAll mnemonic start (kind :: kinds) (operand :: operands) length = .ok values) :
    kind.read mnemonic operand = .ok values.1 ∧
      OperandKind.readAll mnemonic (start + 1) kinds operands (Nat.succ.inj length) = .ok values.2 := by
  unfold OperandKind.readAll at h
  split at h
  next => cases h
  next value read =>
    obtain ⟨rest, others, rfl⟩ := exists_of_map_eq_ok h
    exact ⟨read, others⟩

theorem Mnemonic.instr_eq_ok {m : Mnemonic} {operands : List Operand} {i : Instr} (h : m.instr operands = .ok i) :
    ∃ (length : operands.length = m.arity) (values : OperandKind.Values m.kinds),
      OperandKind.readAll m.name 0 m.kinds operands length = .ok values ∧ m.build values = .ok i := by
  unfold Mnemonic.instr at h
  split at h
  next length =>
    split at h
    next => cases h
    next values read =>
      split at h
      next built =>
        cases h
        exact ⟨length, values, read, built⟩
      next => cases h
  next => cases h

theorem Mnemonic.instr_of_build {m : Mnemonic} {operands : List Operand} {length : operands.length = m.arity}
    {values : OperandKind.Values m.kinds} {i : Instr}
    (read : OperandKind.readAll m.name 0 m.kinds operands length = .ok values) (built : m.build values = .ok i) :
    m.instr operands = .ok i := by
  rw [Mnemonic.instr, dif_pos length, read]
  simp [built]

theorem Mnemonic.instr_eq_error {m : Mnemonic} {operands : List Operand} {e : OperandError}
    (length : operands.length = m.arity) (h : m.instr operands = .error e) :
    OperandKind.readAll m.name 0 m.kinds operands length = .error e ∨
      ∃ values unbuilt, OperandKind.readAll m.name 0 m.kinds operands length = .ok values ∧
        m.build values = .error unbuilt ∧ e = ⟨unbuilt.1, .invalidOperand m.name unbuilt.2⟩ := by
  unfold Mnemonic.instr at h
  rw [dif_pos length] at h
  split at h
  next unfit =>
    cases h
    exact .inl unfit
  next values read =>
    split at h
    next => cases h
    next unbuilt =>
      cases h
      exact .inr ⟨values, _, read, unbuilt, rfl⟩

theorem Mnemonic.instr_of_arity {m : Mnemonic} {operands : List Operand} (wrong : operands.length ≠ m.arity) :
    m.instr operands = .error ⟨0, .wrongArity m.name m.arity operands.length⟩ := by
  rw [Mnemonic.instr, dif_neg wrong]

theorem Digit.digit_toNat (v : Digit) : digit (UInt8.ofNat v.val).toNat = v := by
  revert v
  decide

/-- The form that makes an instruction of one value of a kind. -/
def Form.unary : (kind : OperandKind) → (kind.Value → Instr) → Form
  | .register, make => .ofLoc make
  | .pair _, make => .ofPair make
  | .byte, make => .ofByte make
  | .word, make | .address, make => .ofWord make
  | .vector, make => .ofByte fun b => make (digit b.toNat)

/-- An entry that takes one operand, with the form that suits its kind. -/
def Mnemonic.unary (name : String) (kind : OperandKind) (make : kind.Value → Instr) : Mnemonic :=
  ⟨name, [kind], .unary kind make⟩

theorem Mnemonic.build_unary (name : String) (kind : OperandKind) (make : kind.Value → Instr)
    (values : OperandKind.Values [kind]) : (Mnemonic.unary name kind make).build values = .ok (make values.1) := by
  cases kind with
  | vector => exact congrArg (fun v => Except.ok (make v)) (Digit.digit_toNat values.1)
  | register | pair allowed | byte | word | address => rfl

theorem Mnemonic.build_mov (name : String) (dest src : Loc) :
    Mnemonic.build ⟨name, [.register, .register], .mov⟩ (dest, src, ()) =
      if dest = .mem ∧ src = .mem then .error (1, .notBothMemory) else .ok (.mov dest src) := by
  cases dest <;> cases src <;> rfl

theorem Mnemonic.build_mov_eq_ok {name : String} {values : OperandKind.Values [.register, .register]} {i : Instr}
    (h : Mnemonic.build ⟨name, [.register, .register], .mov⟩ values = .ok i) :
    ¬(values.1 = .mem ∧ values.2.1 = .mem) ∧ .mov values.1 values.2.1 = i := by
  obtain ⟨dest, src, _⟩ := values
  rw [Mnemonic.build_mov] at h
  split at h
  next => cases h
  next apart => exact ⟨apart, Except.ok.inj h⟩

theorem Mnemonic.instr_unary {name : String} {kind : OperandKind} {make : kind.Value → Instr}
    {operand : Operand} {value : kind.Value} (h : kind.read name operand = .ok value) :
    (Mnemonic.unary name kind make).instr [operand] = .ok (make value) := by
  have read : OperandKind.readAll name 0 [kind] [operand] rfl = .ok (value, ()) := by
    simp [OperandKind.readAll, h, Except.map]
  exact Mnemonic.instr_of_build read (Mnemonic.build_unary name kind make _)

/-- How a mnemonic takes a word: not at all, as its only operand, or, for `lxi`, after a pair. The word
stands in the two bytes after the opcode. -/
inductive Mnemonic.Addressing : Mnemonic → Prop
  | none {m : Mnemonic} (wordless : ∀ kind ∈ m.kinds, kind.isWord = false) : Addressing m
  | only (name : String) (make : UInt16 → Instr) (opcode : UInt8)
      (encode : ∀ w, (make w).encode = withWord opcode w) : Addressing (.unary name .address make)
  | second : Addressing ⟨"lxi", [.pair .any, .word], .lxi⟩

theorem Mnemonic.addressing {m : Mnemonic} (hm : m ∈ Mnemonic.table) : m.Addressing := by
  revert m
  simp only [Mnemonic.table, List.forall_mem_cons]
  repeat' apply And.intro
  all_goals first
    | exact .none (by decide)
    | exact .only _ _ _ fun _ => rfl
    | exact .second
    | exact fun _ h => absurd h List.not_mem_nil

/-- Operands that are fine one by one make no instruction together only where both are the memory cell. -/
inductive Mnemonic.Joins : Mnemonic → Prop
  | mov : Joins ⟨"mov", [.register, .register], .mov⟩
  | always {m : Mnemonic} (other : m.name ≠ "mov") (built : ∀ values, ∃ i, m.build values = .ok i) : Joins m

theorem Mnemonic.joins {m : Mnemonic} (hm : m ∈ Mnemonic.table) : m.Joins := by
  revert m
  simp only [Mnemonic.table, List.forall_mem_cons]
  repeat' apply And.intro
  all_goals first
    | exact .mov
    | exact .always (by decide) fun _ => ⟨_, rfl⟩
    | exact fun _ h => absurd h List.not_mem_nil

/-- The form of an entry wants arguments of the kinds of the entry: with values of these kinds it fails at most
where both of them are the memory cell. -/
def Mnemonic.Suits (m : Mnemonic) : Prop :=
  ∀ values unbuilt, m.build values = .error unbuilt → unbuilt = (1, .notBothMemory)

theorem Mnemonic.suits {m : Mnemonic} (hm : m ∈ Mnemonic.table) : m.Suits := by
  intro values unbuilt h
  cases Mnemonic.joins hm with
  | always _ built =>
    obtain ⟨i, made⟩ := built values
    cases made.symm.trans h
  | mov =>
    obtain ⟨dest, src, _⟩ := values
    rw [Mnemonic.build_mov] at h
    split at h
    next => exact (Except.error.inj h).symm
    next => cases h

end I8080
