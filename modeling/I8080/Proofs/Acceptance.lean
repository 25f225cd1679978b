import I8080.Proofs.Fit
import I8080.Proofs.Layout
import I8080.Proofs.Row

namespace I8080

/-- The bytes of an immediate operand, the number modulo 256 or modulo 65536, low byte first. -/
def OperandKind.bytes : OperandKind → Operand → List UInt8
  | .byte, .value n => [UInt8.ofNat (n % 256).toNat]
  | .word, .value n | .address, .value n =>
    [UInt8.ofNat (n % 65536 % 256).toNat, UInt8.ofNat (n % 65536 / 256).toNat]
  | _, _ => []

/-- Zero for an immediate operand; any other operand is kept. -/
def OperandKind.blankOperand (kind : OperandKind) (operand : Operand) : Operand :=
  if kind.isImmediate then .value 0 else operand

def Mnemonic.blank (m : Mnemonic) (operands : List Operand) : List Operand :=
  m.kinds.zipWith OperandKind.blankOperand operands

/-- Whether an operand names the memory cell. -/
def Operand.IsMemory : Operand → Prop
  | .name text => text.toLower = "m"
  | .value _ => False

def Mnemonic.MovesMemory (m : Mnemonic) (operands : List Operand) : Prop :=
  m.name = "mov" ∧ ∀ operand ∈ operands, operand.IsMemory

instance : (operand : Operand) → Decidable operand.IsMemory
  | .name text => instDecidableEqString text.toLower "m"
  | .value _ => instDecidableFalse

instance (m : Mnemonic) (operands : List Operand) : Decidable (m.MovesMemory operands) := by
  unfold Mnemonic.MovesMemory
  infer_instance

variable {mnemonic : String} {start : Nat} {kind : OperandKind} {kinds : List OperandKind} {operand : Operand}
  {operands : List Operand}

theorem Word.bytes_ofInt (n : Int) : [Word.low (UInt16.ofInt n), Word.high (UInt16.ofInt n)] =
    [UInt8.ofNat (n % 65536 % 256).toNat, UInt8.ofNat (n % 65536 / 256).toNat] := by
  have word : (UInt16.ofInt n).toNat = (n % 65536).toNat := by
    simp only [UInt16.ofInt, UInt16.toNat_ofNat']
    omega
  have low : Word.low (UInt16.ofInt n) = UInt8.ofNat (n % 65536 % 256).toNat := by
    apply UInt8.toNat_inj.mp
    rw [Word.toNat_low, word, UInt8.toNat_ofNat']
    omega
  have high : Word.high (UInt16.ofInt n) = UInt8.ofNat (n % 65536 / 256).toNat := by
    apply UInt8.toNat_inj.mp
    rw [Word.toNat_high, word, UInt8.toNat_ofNat']
    omega
  rw [low, high]

theorem OperandKind.valueBytes_of_read {value : kind.Value} (read : kind.read mnemonic operand = .ok value) :
    kind.valueBytes value = kind.bytes operand := by
  cases kind with
  | register | pair allowed | vector => cases operand <;> rfl
  | byte | word | address =>
    cases operand with
    | name text => cases read
    | value n =>
      obtain ⟨k, number, rfl⟩ := exists_of_map_eq_ok read
      obtain ⟨rfl, -⟩ := readNumber_eq_ok_iff.mp number
      first | rfl | exact Word.bytes_ofInt n

theorem OperandKind.read_blank {value : kind.Value} (read : kind.read mnemonic operand = .ok value) :
    kind.read mnemonic (kind.blankOperand operand) = .ok (kind.blank value) := by
  cases kind with
  | register | pair allowed | vector => exact read
  | byte | word | address => rfl

theorem OperandKind.isMemory_of_read {loc : Loc} (read : OperandKind.register.read mnemonic operand = .ok loc) :
    loc = .mem ↔ operand.IsMemory := by
  cases operand with
  | value n => cases read
  | name text =>
    cases found : Loc.ofName? text with
    | none => simp [OperandKind.read, found] at read
    | some loc' =>
      have named : loc'.name = text.toLower := by simpa using List.find?_some found
      have same : loc' = loc := by simpa [OperandKind.read, found] using read
      subst same
      rw [Operand.IsMemory, ← named]
      cases loc' with
      | mem => exact iff_of_true rfl rfl
      | reg r => cases r <;> decide

theorem OperandKind.readAll_eq_ok_iff {length : operands.length = kinds.length} :
    (∃ values, OperandKind.readAll mnemonic start kinds operands length = .ok values) ↔
      ∀ pair ∈ kinds.zip operands, pair.1.Fits pair.2 := by
  constructor
  · rintro ⟨values, read⟩
    induction kinds generalizing start operands with
    | nil => simp
    | cons kind kinds ih =>
      obtain ⟨operand, operands, rfl⟩ := List.exists_cons_of_length_eq_add_one length
      obtain ⟨first, others⟩ := OperandKind.readAll_cons_eq_ok read
      rw [List.zip_cons_cons, List.forall_mem_cons]
      exact ⟨OperandKind.read_eq_ok_iff.mp ⟨_, first⟩, ih _ others⟩
  · intro fit
    cases read : OperandKind.readAll mnemonic start kinds operands length with
    | ok values => exact ⟨values, rfl⟩
    | error e =>
      obtain ⟨k, kind, operand, -, found, unread, -⟩ := OperandKind.readAll_error read
      have readable : ∃ value, kind.read mnemonic operand = .ok value :=
        OperandKind.read_eq_ok_iff.mpr (fit _ (List.mem_of_getElem? found))
      simp [unread] at readable

theorem OperandKind.allBytes_of_readAll {length : operands.length = kinds.length} {values : OperandKind.Values kinds}
    (read : OperandKind.readAll mnemonic start kinds operands length = .ok values) :
    OperandKind.allBytes kinds values = (kinds.zip operands).flatMap fun pair => pair.1.bytes pair.2 := by
  induction kinds generalizing start operands with
  | nil => simp [OperandKind.allBytes]
  | cons kind kinds ih =>
    obtain ⟨operand, operands, rfl⟩ := List.exists_cons_of_length_eq_add_one length
    obtain ⟨first, others⟩ := OperandKind.readAll_cons_eq_ok read
    rw [List.zip_cons_cons, List.flatMap_cons, ← ih others, ← OperandKind.valueBytes_of_read first]
    rfl

theorem OperandKind.length_allBytes (values : OperandKind.Values kinds) :
    (OperandKind.allBytes kinds values).length = kinds.count .byte + 2 * kinds.countP OperandKind.isWord := by
  induction kinds with
  | nil => rfl
  | cons kind kinds ih =>
    obtain ⟨value, values⟩ := values
    rw [OperandKind.allBytes, List.length_append, ih, List.count_cons, List.countP_cons]
    cases kind <;> simp [OperandKind.valueBytes, OperandKind.isWord] <;> omega

/-- Operands that fit one by one make an instruction together, save that they may not move memory to memory. -/
theorem Mnemonic.built_iff {m : Mnemonic} (hm : m ∈ Mnemonic.table) {length : operands.length = m.arity}
    {values : OperandKind.Values m.kinds}
    (read : OperandKind.readAll m.name 0 m.kinds operands length = .ok values) :
    (∃ i, m.build values = .ok i) ↔ ¬m.MovesMemory operands := by
  cases Mnemonic.joins hm with
  | always other built => exact iff_of_true (built values) fun moves => other moves.1
  | mov =>
    obtain ⟨o, os, rfl⟩ := List.exists_cons_of_length_eq_add_one length
    obtain ⟨o', os', rfl⟩ := List.exists_cons_of_length_eq_add_one (Nat.succ.inj length)
    cases List.eq_nil_of_length_eq_zero (Nat.succ.inj (Nat.succ.inj length))
    obtain ⟨dest, others⟩ := OperandKind.readAll_cons_eq_ok read
    obtain ⟨src, -⟩ := OperandKind.readAll_cons_eq_ok others
    rw [Mnemonic.build_mov]
    simp only [Mnemonic.MovesMemory, List.forall_mem_cons, ← OperandKind.isMemory_of_read dest,
      ← OperandKind.isMemory_of_read src]
    split
    next both => simp [both]
    next apart => simpa using apart

theorem OperandKind.readAll_blank {length : operands.length = kinds.length} {values : OperandKind.Values kinds}
    (read : OperandKind.readAll mnemonic start kinds operands length = .ok values)
    (length' : (kinds.zipWith OperandKind.blankOperand operands).length = kinds.length) :
    OperandKind.readAll mnemonic start kinds (kinds.zipWith OperandKind.blankOperand operands) length' =
      .ok (OperandKind.blankAll kinds values) := by
  induction kinds generalizing start operands with
  | nil => rfl
  | cons kind kinds ih =>
    obtain ⟨operand, operands, rfl⟩ := List.exists_cons_of_length_eq_add_one length
    obtain ⟨first, others⟩ := OperandKind.readAll_cons_eq_ok read
    have later := ih others (Nat.succ.inj length')
    simp only [List.zipWith_cons_cons, OperandKind.readAll, OperandKind.read_blank first, later]
    rfl

/-- With zeros for its immediate operands an instruction keeps its opcode. -/
theorem Mnemonic.instr_blank {m : Mnemonic} (hm : m ∈ Mnemonic.table) {i : Instr} (h : m.instr operands = .ok i) :
    ∃ blank, m.instr (m.blank operands) = .ok blank ∧
      i.encode = blank.encode.headD 0 :: (m.kinds.zip operands).flatMap fun pair => pair.1.bytes pair.2 := by
  obtain ⟨length, values, read, built⟩ := Mnemonic.instr_eq_ok h
  obtain ⟨blank, made, encode⟩ := (Mnemonic.lays hm values i built).encode
  have length' : (m.blank operands).length = m.arity := by
    rw [Mnemonic.blank, List.length_zipWith, length, Mnemonic.arity, Nat.min_self]
  refine ⟨blank, Mnemonic.instr_of_build (OperandKind.readAll_blank read length') made, ?_⟩
  rw [encode, OperandKind.allBytes_of_readAll read]

theorem OperandKind.bytes_eq_nil (h : kind.isImmediate = false) (operand : Operand) : kind.bytes operand = [] := by
  cases kind with
  | register | pair allowed | vector => cases operand <;> rfl
  | byte | word | address => cases h

/-- Where only the last operand may be immediate, its bytes are all that there are. -/
theorem OperandKind.flatMap_bytes (last : ∀ kind ∈ kinds.dropLast, kind.isImmediate = false)
    {pair : OperandKind × Operand} (mem : pair ∈ kinds.zip operands) (immediate : pair.1.isImmediate = true) :
    ((kinds.zip operands).flatMap fun pair => pair.1.bytes pair.2) = pair.1.bytes pair.2 := by
  induction kinds generalizing operands with
  | nil => simp at mem
  | cons kind kinds ih =>
    cases operands with
    | nil => simp at mem
    | cons operand operands =>
      rw [List.zip_cons_cons, List.flatMap_cons]
      cases kinds with
      | nil =>
        cases List.mem_singleton.mp mem
        simp
      | cons next kinds =>
        have kept : kind.isImmediate = false := last kind (by simp)
        rcases List.mem_cons.mp mem with rfl | later
        · cases kept.symm.trans immediate
        · rw [OperandKind.bytes_eq_nil kept, List.nil_append]
          exact ih (fun kind hk => last kind (List.mem_cons_of_mem _ hk)) later

/-- The operand to blame is the first that does not fit. -/
theorem Mnemonic.misfit?_of_readAll {m : Mnemonic} {length : operands.length = m.arity} {e : OperandError}
    (h : OperandKind.readAll m.name 0 m.kinds operands length = .error e) :
    m.misfit? operands = some e.operand := by
  obtain ⟨k, kind, operand, place, found, unread, before⟩ := OperandKind.readAll_error h
  obtain ⟨inside, here⟩ := List.getElem?_eq_some_iff.mp found
  have unfit : ¬kind.Fits operand := by
    rw [← OperandKind.read_eq_ok_iff, unread]
    simp
  rw [place, Nat.zero_add, Mnemonic.misfit?, List.findIdx?_eq_some_iff_getElem]
  refine ⟨inside, by simpa [here] using unfit, ?_⟩
  intro j earlier
  have read := before _ (List.mem_take_iff_getElem.mpr ⟨j, by omega, rfl⟩)
  simpa using OperandKind.read_eq_ok_iff.mp read

/-- What is known of an instruction that a mnemonic makes of operands. -/
structure Mnemonic.Encodes (m : Mnemonic) (operands : List Operand) (i : Instr) : Prop where
  canonical : i.Canonical
  text : i.toText = m.name ∨ ∃ rest, i.toText = m.name ++ " " ++ rest
  length : i.encode.length = 1 + m.kinds.count .byte + 2 * m.kinds.countP OperandKind.isWord
  immediate : ∀ pair ∈ m.kinds.zip operands, pair.1.isImmediate = true → i.encode.tail = pair.1.bytes pair.2
  opcode : ∀ operands' i', m.blank operands' = m.blank operands → m.instr operands' = .ok i' →
    i'.encode.head? = i.encode.head?

theorem Mnemonic.encodes {m : Mnemonic} (hm : m ∈ Mnemonic.table) {i : Instr} (h : m.instr operands = .ok i) :
    m.Encodes operands i := by
  obtain ⟨length, values, read, built⟩ := Mnemonic.instr_eq_ok h
  obtain ⟨blank, made, encode⟩ := Mnemonic.instr_blank hm h
  constructor
  case canonical => exact Mnemonic.canonical_of_instr hm h
  case text => exact (Mnemonic.lays hm values i built).text
  case length =>
    rw [encode, List.length_cons, ← OperandKind.allBytes_of_readAll read, OperandKind.length_allBytes]
    omega
  case immediate =>
    intro pair mem immediate
    rw [encode]
    exact OperandKind.flatMap_bytes (Mnemonic.isImmediate_dropLast hm) mem immediate
  case opcode =>
    intro operands' i' same h'
    obtain ⟨blank', made', encode'⟩ := Mnemonic.instr_blank hm h'
    rw [same, made] at made'
    cases made'
    rw [encode, encode']
    rfl

theorem Mnemonic.instr_eq_ok_iff {m : Mnemonic} (hm : m ∈ Mnemonic.table) :
    (∃ i, m.instr operands = .ok i) ↔ operands.length = m.arity ∧
      (∀ pair ∈ m.kinds.zip operands, pair.1.Fits pair.2) ∧ ¬m.MovesMemory operands := by
  constructor
  · rintro ⟨i, h⟩
    obtain ⟨length, values, read, built⟩ := Mnemonic.instr_eq_ok h
    refine ⟨length, OperandKind.readAll_eq_ok_iff.mp ⟨values, read⟩, ?_⟩
    exact (Mnemonic.built_iff hm read).mp ⟨i, built⟩
  · rintro ⟨length, fit, moves⟩
    have readable : ∃ values, OperandKind.readAll m.name 0 m.kinds operands length = .ok values :=
      OperandKind.readAll_eq_ok_iff.mpr fit
    obtain ⟨values, read⟩ := readable
    obtain ⟨i, built⟩ := (Mnemonic.built_iff hm read).mpr moves
    exact ⟨i, Mnemonic.instr_of_build read built⟩

/-- Where the operands are as many as there should be, the one to blame is the first that does not fit, or the
second of two that both are the memory cell. -/
theorem Mnemonic.blame {m : Mnemonic} (hm : m ∈ Mnemonic.table) {e : OperandError}
    (length : operands.length = m.arity) (h : m.instr operands = .error e) :
    m.misfit? operands = some e.operand ∨
      m.misfit? operands = none ∧ m.MovesMemory operands ∧ e.operand = 1 := by
  rcases Mnemonic.instr_eq_error length h with unread | ⟨values, unbuilt, read, failed, rfl⟩
  · exact .inl (Mnemonic.misfit?_of_readAll unread)
  · have moves : m.MovesMemory operands := by
      by_contra still
      obtain ⟨i, built⟩ := (Mnemonic.built_iff hm read).mpr still
      cases built.symm.trans failed
    refine .inr ⟨?_, moves, congrArg Prod.fst (Mnemonic.suits hm values unbuilt failed)⟩
    have fit := OperandKind.readAll_eq_ok_iff.mp ⟨values, read⟩
    simpa [Mnemonic.misfit?, List.findIdx?_eq_none_iff] using fit

/-- No mnemonic complains of operands that its form cannot take. -/
theorem Mnemonic.expected_ne_otherKind {m : Mnemonic} (hm : m ∈ Mnemonic.table) {e : OperandError} {name : String}
    {expected : Expectation} (h : m.instr operands = .error e) (shape : e.error = .invalidOperand name expected) :
    expected ≠ .otherKind := by
  by_cases length : operands.length = m.arity
  · rcases Mnemonic.instr_eq_error length h with unread | ⟨values, unbuilt, -, failed, rfl⟩
    · obtain ⟨-, kind, operand, -, -, unfit, -⟩ := OperandKind.readAll_error unread
      rw [shape] at unfit
      cases OperandKind.read_error unfit with
      | shape _ _ alone => exact alone
    · cases Mnemonic.suits hm values unbuilt failed
      cases shape
      exact nofun
  · cases h.symm.trans (Mnemonic.instr_of_arity length)
    cases shape

/-- A mnemonic takes exactly the operands that fit its kinds, save that it does not move memory to memory. -/
theorem Mnemonic.takes_fitting_operands {m : Mnemonic} (hm : m ∈ Mnemonic.table) (operands : List Operand) :
    ((∃ i, m.instr operands = .ok i) ↔ operands.length = m.arity ∧
        (∀ pair ∈ m.kinds.zip operands, pair.1.Fits pair.2) ∧ ¬m.MovesMemory operands) ∧
      (∀ i, m.instr operands = .ok i → m.Encodes operands i) ∧
      (∀ e, m.instr operands = .error e → operands.length = m.arity →
        m.misfit? operands = some e.operand ∨
          m.misfit? operands = none ∧ m.MovesMemory operands ∧ e.operand = 1) ∧
      (∀ e name expected, m.instr operands = .error e → e.error = .invalidOperand name expected →
        expected.text ≠ "operands of another kind") ∧ m.Suits := by
  refine ⟨Mnemonic.instr_eq_ok_iff hm, fun _ => Mnemonic.encodes hm, fun _ h length => Mnemonic.blame hm length h, ?_,
    Mnemonic.suits hm⟩
  intro e name expected h shape
  have alone := Mnemonic.expected_ne_otherKind hm h shape
  cases expected with
  | otherKind => exact absurd rfl alone
  | register | pair | literal | literalOrLabel | notBothMemory => decide

/-- A number may be negative, and names are read in either case. -/
theorem Mnemonic.takes_fitting_operands_negative :
    ∃ m ∈ Mnemonic.table, m.name = "lxi" ∧ ∃ i, m.instr [.name "SP", .value (-2)] = .ok i ∧
      i.encode.tail = [0xFE, 0xFF] := by
  have mem : Mnemonic.table[4] ∈ Mnemonic.table := List.getElem_mem (by decide)
  obtain ⟨takes, makes, -⟩ := Mnemonic.takes_fitting_operands mem [.name "SP", .value (-2)]
  have fit : ∀ pair ∈ Mnemonic.table[4].kinds.zip [.name "SP", .value (-2)], pair.1.Fits pair.2 := by decide +kernel
  have still : ¬Mnemonic.table[4].MovesMemory [.name "SP", .value (-2)] := by decide +kernel
  obtain ⟨i, made⟩ := takes.mpr ⟨rfl, fit, still⟩
  have tail := (makes i made).immediate (.word, .value (-2)) (by decide) rfl
  exact ⟨_, mem, rfl, i, made, tail.trans (by decide)⟩

end I8080
