import I8080.Proofs.Except
import I8080.Proofs.StepFault

namespace I8080

inductive Flag where
  | sign | zero | aux | parity | carry
  deriving DecidableEq

def Flags.get (fs : Flags) : Flag → Bool
  | .sign => fs.sign
  | .zero => fs.zero
  | .aux => fs.aux
  | .parity => fs.parity
  | .carry => fs.carry

/-- The parts of a machine besides its program counter. A cell goes by its offset in the window. -/
inductive Part where
  | cell (offset : Nat)
  | register (r : Register)
  | flag (f : Flag)
  | stackPointer
  | halted
  deriving DecidableEq

def Machine.Agrees (m n : Machine) : Part → Prop
  | .cell offset => n.memory[offset]? = m.memory[offset]?
  | .register r => n.registers.get r = m.registers.get r
  | .flag f => n.flags.get f = m.flags.get f
  | .stackPointer => n.sp = m.sp
  | .halted => n.halted = m.halted

/-- Nothing but these parts, and the program counter, differs from one machine to the other. -/
def Machine.Changes (m : Machine) (parts : List Part) (n : Machine) : Prop :=
  ∀ part, part ∉ parts → m.Agrees n part

def Part.ofAddress (address : UInt16) : Part :=
  .cell (address - windowBase).toNat

def Machine.place (m : Machine) : Loc → Part
  | .reg r => .register r
  | .mem => .ofAddress (m.pair .hl)

def Flag.uncarried : List Part :=
  [.flag .sign, .flag .zero, .flag .aux, .flag .parity]

def Flag.all : List Part :=
  Flag.uncarried ++ [.flag .carry]

def RegPair.parts : RegPair → List Part
  | .bc => [.register .b, .register .c]
  | .de => [.register .d, .register .e]
  | .hl => [.register .h, .register .l]
  | .sp => [.stackPointer]
  | .psw => .register .a :: Flag.all

/-- The two cells below the top of the stack, which a push fills. -/
def Machine.below (m : Machine) : List Part :=
  [.cell (m.sp.val - 1), .cell (m.sp.val - 2)]

/-- The parts that an instruction may change. -/
def Machine.footprint (m : Machine) : Instr → List Part
  | .mov dest _ | .mvi dest _ => [m.place dest]
  | .inr loc | .dcr loc => m.place loc :: Flag.uncarried
  | .lxi pair _ | .inx pair | .dcx pair => pair.parts
  | .pop pair => .stackPointer :: pair.parts
  | .lda _ | .ldax _ | .cma => [.register .a]
  | .sta address => [.ofAddress address]
  | .shld address => [.ofAddress address, .ofAddress (address + 1)]
  | .stax pair => [.ofAddress (m.pair pair)]
  | .lhld _ => RegPair.hl.parts
  | .xchg => RegPair.de.parts ++ RegPair.hl.parts
  | .alu op _ | .aluImmediate op _ => if op = .cmp then Flag.all else .register .a :: Flag.all
  | .daa => .register .a :: Flag.all
  | .dad _ => RegPair.hl.parts ++ [.flag .carry]
  | .cmc | .stc => [.flag .carry]
  | .rlc | .rrc | .ral | .rar => [.register .a, .flag .carry]
  | .push _ | .call _ | .rst _ => .stackPointer :: m.below
  | .callIf condition _ => if condition.holds m.flags then .stackPointer :: m.below else []
  | .ret | .sphl => [.stackPointer]
  | .retIf condition => if condition.holds m.flags then [.stackPointer] else []
  | .xthl => [.cell m.sp.val, .cell (m.sp.val + 1)] ++ RegPair.hl.parts
  | .hlt => [.halted]
  | .nop | .jmp _ | .jmpIf .. | .pchl => []

/-- How the stack pointer of the second machine comes from the first through an instruction. -/
def Machine.MovesStack (m : Machine) (i : Instr) (n : Machine) : Prop :=
  match i with
  | .lxi .sp value => n.pair .sp = value
  | .inx .sp => n.pair .sp = m.pair .sp + 1
  | .dcx .sp => n.pair .sp = m.pair .sp - 1
  | .sphl => n.pair .sp = m.pair .hl
  | .push _ | .call _ | .rst _ => n.sp.val + 2 = m.sp.val
  | .callIf condition _ => if condition.holds m.flags then n.sp.val + 2 = m.sp.val else n.sp = m.sp
  | .pop _ | .ret => n.sp.val = m.sp.val + 2
  | .retIf condition => if condition.holds m.flags then n.sp.val = m.sp.val + 2 else n.sp = m.sp
  | _ => n.sp = m.sp

namespace Machine.Changes

variable {m n k : Machine} {parts more : List Part}

theorem refl (m : Machine) : m.Changes [] m := by
  intro part _
  cases part <;> rfl

theorem trans (h : m.Changes parts n) (h' : n.Changes more k) : m.Changes (parts ++ more) k := by
  intro part free
  have free : part ∉ parts ∧ part ∉ more := by simpa using free
  have first := h part free.1
  have second := h' part free.2
  cases part <;> exact Eq.trans second first

theorem mono (h : m.Changes parts n) (within : parts ⊆ more) : m.Changes more n :=
  fun part free => h part fun mem => free (within mem)

/-- What is the same again in the end does not count as changed. -/
theorem restore {part : Part} (h : m.Changes (part :: parts) n) (same : m.Agrees n part) :
    m.Changes parts n := by
  intro query free
  by_cases heq : query = part
  · exact heq ▸ same
  · exact h query (by simp [heq, free])

theorem goto (h : m.Changes parts n) (target : Nat) : m.Changes parts (n.goto target) := by
  intro part free
  have same := h part free
  cases part <;> exact same

theorem memory (h : m.Changes parts n) (free : ∀ offset, .cell offset ∉ parts) : n.memory = m.memory := by
  apply Vector.ext
  intro offset bound
  have same : n.memory[offset]? = m.memory[offset]? := h (.cell offset) (free offset)
  simpa [bound] using same

/-- Parts are all there is to a machine but the program counter. -/
theorem eq_of_nil (h : m.Changes [] n) : n = { m with pc := n.pc } := by
  have cells : n.memory = m.memory := h.memory fun _ => List.not_mem_nil
  have get : ∀ r, n.registers.get r = m.registers.get r := fun r => h (.register r) List.not_mem_nil
  have registers : n.registers = m.registers := by
    have a := get .a
    have b := get .b
    have c := get .c
    have d := get .d
    have e := get .e
    have hh := get .h
    have l := get .l
    cases hn : n.registers
    cases hm : m.registers
    simp_all [Registers.get]
  have flag : ∀ f, n.flags.get f = m.flags.get f := fun f => h (.flag f) List.not_mem_nil
  have flags : n.flags = m.flags := by
    have s := flag .sign
    have z := flag .zero
    have a := flag .aux
    have p := flag .parity
    have c := flag .carry
    cases hn : n.flags
    cases hm : m.flags
    simp_all [Flags.get]
  have sp : n.sp = m.sp := h .stackPointer List.not_mem_nil
  have halted : n.halted = m.halted := h .halted List.not_mem_nil
  cases n
  simp_all

end Machine.Changes

theorem Machine.changes_setRegister (m : Machine) (r : Register) (value : UInt8) :
    m.Changes [.register r] (m.setRegister r value) := by
  intro part free
  cases part with
  | register q =>
    have hne : q ≠ r := by
      rintro rfl
      exact free List.mem_cons_self
    simp [Machine.Agrees, Machine.setRegister, Registers.get_set, hne]
  | _ => rfl

theorem Machine.changes_flags (m : Machine) (flags : Flags) :
    m.Changes Flag.all { m with flags } := by
  intro part free
  cases part with
  | flag f => cases f <;> exact absurd (by decide) free
  | _ => rfl

theorem Machine.changes_carry (m : Machine) (carry : Bool) :
    m.Changes [.flag .carry] { m with flags := { m.flags with carry } } := by
  intro part free
  cases part with
  | flag f =>
    cases f with
    | carry => exact absurd List.mem_cons_self free
    | _ => rfl
  | _ => rfl

theorem Machine.changes_counted (m : Machine) (raw : UInt16) :
    m.Changes Flag.uncarried { m with flags := m.flags.counted raw } := by
  intro part free
  cases part with
  | flag f =>
    cases f with
    | carry => rfl
    | _ => exact absurd (by decide) free
  | _ => rfl

theorem Machine.changes_cell (m : Machine) {offset : Nat} (inside : offset < windowSize) (value : UInt8) :
    m.Changes [.cell offset] { m with memory := m.memory.set offset value inside } := by
  intro part free
  cases part with
  | cell other =>
    have hne : offset ≠ other := by
      rintro rfl
      exact free List.mem_cons_self
    simp [Machine.Agrees, Vector.getElem?_set_ne, hne]
  | _ => rfl

theorem Machine.changes_sp (m : Machine) (sp : Fin (windowSize + 1)) :
    m.Changes [.stackPointer] { m with sp } := by
  intro part free
  cases part with
  | stackPointer => exact absurd List.mem_cons_self free
  | _ => rfl

theorem Machine.changes_halted (m : Machine) (halted : Bool) :
    m.Changes [.halted] { m with halted } := by
  intro part free
  cases part with
  | halted => exact absurd List.mem_cons_self free
  | _ => rfl

theorem Machine.offsetOf_eq_ok {m : Machine} {address : UInt16} {offset : Offset}
    (h : m.offsetOf address = .ok offset) : offset.val = (address - windowBase).toNat := by
  unfold Machine.offsetOf Offset.ofAddress? at h
  by_cases inside : (address - windowBase).toNat < windowSize
  · simp only [inside, dite_true] at h
    cases h
    rfl
  · simp [inside] at h

theorem Offset.wrap_val (offset : Offset) : Offset.wrap offset.val = offset :=
  Fin.ext (Nat.mod_eq_of_lt offset.isLt)

theorem Machine.pc_of_jump {m n : Machine} {address : UInt16} (h : m.jump address = .ok n) :
    n.pc.val = (address - windowBase).toNat := by
  rw [Machine.jump_eq] at h
  obtain ⟨offset, found, rfl⟩ := exists_of_map_eq_ok h
  rw [← Machine.offsetOf_eq_ok found]
  exact congrArg Fin.val (Offset.wrap_val offset)

theorem Machine.changes_write {m n : Machine} {address : UInt16} {value : UInt8}
    (h : m.write address value = .ok n) : m.Changes [.ofAddress address] n := by
  obtain ⟨offset, found, rfl⟩ := exists_of_map_eq_ok h
  rw [Part.ofAddress, ← Machine.offsetOf_eq_ok found]
  exact m.changes_cell offset.isLt value

theorem Machine.changes_store {m n : Machine} {loc : Loc} {value : UInt8} (h : m.store loc value = .ok n) :
    m.Changes [m.place loc] n := by
  cases loc with
  | reg r =>
    cases h
    exact m.changes_setRegister r value
  | mem => exact Machine.changes_write h

theorem Machine.changes_setRegisters (m : Machine) (r q : Register) (first second : UInt8) :
    m.Changes [.register r, .register q] ((m.setRegister r first).setRegister q second) :=
  (m.changes_setRegister r first).trans (Machine.changes_setRegister _ q second)

theorem Machine.changes_setPair {m n : Machine} {pair : RegPair} {value : UInt16}
    (h : m.setPair pair value = .ok n) : m.Changes pair.parts n := by
  cases pair with
  | bc =>
    cases h
    exact m.changes_setRegisters .b .c (Word.high value) (Word.low value)
  | de =>
    cases h
    exact m.changes_setRegisters .d .e (Word.high value) (Word.low value)
  | hl =>
    cases h
    exact m.changes_setRegisters .h .l (Word.high value) (Word.low value)
  | sp =>
    unfold Machine.setPair at h
    dsimp only at h
    split at h
    next inside =>
      cases h
      exact m.changes_sp _
    next => cases h
  | psw =>
    cases h
    exact (m.changes_setRegister .a _).trans (Machine.changes_flags _ _)

theorem Machine.pair_sp_of_setPair {m n : Machine} {value : UInt16} (h : m.setPair .sp value = .ok n) :
    n.pair .sp = value := by
  unfold Machine.setPair at h
  dsimp only at h
  split at h
  next inside =>
    cases h
    change windowBase + UInt16.ofNat (value - windowBase).toNat = value
    rw [UInt16.ofNat_toNat, UInt16.add_comm, UInt16.sub_add_cancel]
  next => cases h

theorem Machine.room_lt {m : Machine} {k : Nat} (room : m.sp.val = k + 2) : k + 1 < windowSize := by
  have bound := m.sp.isLt
  omega

theorem Machine.push_eq_ok {m n : Machine} {value : UInt16} (h : m.push value = .ok n) :
    ∃ k, ∃ room : m.sp.val = k + 2, n = { m with
      memory := (m.memory.set (k + 1) (Word.high value) (Machine.room_lt room)).set k (Word.low value)
        (Nat.lt_of_succ_lt (Machine.room_lt room))
      sp := ⟨k, Nat.lt_succ_of_lt (Nat.lt_of_succ_lt (Machine.room_lt room))⟩ } := by
  by_cases full : m.sp.val < 2
  · rw [Machine.push_of_full full] at h
    cases h
  · have room : m.sp.val = m.sp.val - 2 + 2 := by omega
    rw [Machine.push_of_room room] at h
    cases h
    exact ⟨_, room, rfl⟩

theorem Machine.changes_push {m n : Machine} {value : UInt16} (h : m.push value = .ok n) :
    m.Changes (.stackPointer :: m.below) n := by
  obtain ⟨k, room, rfl⟩ := Machine.push_eq_ok h
  have first : m.sp.val - 1 = k + 1 := by omega
  have second : m.sp.val - 2 = k := by omega
  have inside : k + 1 < windowSize := by omega
  have high := m.changes_cell inside (Word.high value)
  have low := Machine.changes_cell { m with memory := m.memory.set (k + 1) (Word.high value) inside }
    (Nat.lt_of_succ_lt inside) (Word.low value)
  refine ((high.trans low).trans (Machine.changes_sp _ _)).mono ?_
  simp [Machine.below, first, second]

theorem Machine.changes_pop {m n : Machine} {value : UInt16} (h : m.pop = .ok (value, n)) :
    m.Changes [.stackPointer] n := by
  obtain ⟨-, kept, -⟩ := Machine.pop_eq_ok h
  rw [kept]
  exact m.changes_sp n.sp

/-- What is pushed after a pop takes the place of what was popped. -/
theorem Machine.changes_exchange {m popped n : Machine} {value other : UInt16} (pop : m.pop = .ok (value, popped))
    (push : popped.push other = .ok n) : m.Changes [.cell m.sp.val, .cell (m.sp.val + 1)] n := by
  obtain ⟨-, kept, sp⟩ := Machine.pop_eq_ok pop
  obtain ⟨k, room, moved⟩ := Machine.push_eq_ok push
  have both := (Machine.changes_pop pop).trans (Machine.changes_push push)
  have pointer : n.sp = m.sp := by
    apply Fin.ext
    rw [moved]
    dsimp only
    omega
  have changes : m.Changes [.stackPointer, .cell m.sp.val, .cell (m.sp.val + 1)] n := by
    refine both.mono ?_
    simp [Machine.below, sp]
  exact changes.restore pointer

theorem Machine.changes_accumulate (m : Machine) (op : AluOp) (value : UInt8) :
    m.Changes (if op = .cmp then Flag.all else .register .a :: Flag.all) (m.accumulate op value) := by
  have both := (m.changes_setRegister .a (op.apply m.flags.carry m.registers.a value).1).trans
    (Machine.changes_flags _ (op.apply m.flags.carry m.registers.a value).2)
  cases op with
  -- A comparison puts the accumulator back as it was.
  | cmp => exact both.restore rfl
  | _ => exact both

theorem Machine.changes_count {m n : Machine} {loc : Loc} {delta : UInt16} (h : m.count loc delta = .ok n) :
    m.Changes (m.place loc :: Flag.uncarried) n := by
  obtain ⟨value, -, h⟩ := exists_of_bind_eq_ok h
  obtain ⟨stored, store, h⟩ := exists_of_bind_eq_ok h
  cases h
  have place := Machine.changes_store store
  rw [← Process.flags_store store]
  exact place.trans (stored.changes_counted _)

theorem Machine.changes_jump {m n : Machine} {address : UInt16} (h : m.jump address = .ok n) : m.Changes [] n := by
  rw [Machine.jump_eq] at h
  obtain ⟨offset, -, rfl⟩ := exists_of_map_eq_ok h
  exact (Machine.Changes.refl m).goto _

theorem Machine.changes_call {m n : Machine} {next : Offset} {address : UInt16}
    (h : m.call next address = .ok n) : m.Changes (.stackPointer :: m.below) n := by
  obtain ⟨target, -, h⟩ := exists_of_bind_eq_ok h
  obtain ⟨pushed, push, h⟩ := exists_of_bind_eq_ok h
  cases h
  exact (Machine.changes_push push).goto _

theorem Machine.changes_ret {m n : Machine} (h : m.ret = .ok n) : m.Changes [.stackPointer] n := by
  obtain ⟨⟨address, popped⟩, pop, jump⟩ := exists_of_bind_eq_ok h
  exact (Machine.changes_pop pop).trans (Machine.changes_jump jump)

theorem Machine.ite_eq_ok {m n : Machine} {condition : Bool} {next : Offset} {attempt : Except Fault Machine}
    (h : (if condition then attempt else .ok (m.goto next)) = .ok n) :
    condition = true ∧ attempt = .ok n ∨ condition = false ∧ n = m.goto next := by
  cases condition with
  | true => exact .inl ⟨rfl, h⟩
  | false => exact .inr ⟨rfl, (Except.ok.inj h).symm⟩

theorem Machine.changes_ite {m n : Machine} {parts : List Part} {condition : Bool} {next : Offset}
    {attempt : Except Fault Machine} (h : (if condition then attempt else .ok (m.goto next)) = .ok n)
    (taken : attempt = .ok n → m.Changes parts n) : m.Changes (if condition then parts else []) n := by
  rcases Machine.ite_eq_ok h with ⟨rfl, ok⟩ | ⟨rfl, rfl⟩
  · exact taken ok
  · exact (Machine.Changes.refl m).goto _

theorem Machine.changes_perform {m n : Machine} {i : Instr} (h : m.perform i = .ok n) :
    m.Changes (m.footprint i) n := by
  cases i with
  | hlt =>
    cases h
    exact m.changes_halted true
  | mov dest src =>
    obtain ⟨value, -, store⟩ := exists_of_bind_eq_ok h
    exact Machine.changes_store store
  | mvi dest value => exact Machine.changes_store h
  | lxi pair value => exact Machine.changes_setPair h
  | inx pair | dcx pair => exact Machine.changes_setPair h
  | sphl =>
    have set : m.setPair .sp (m.pair .hl) = .ok n := h
    exact Machine.changes_setPair set
  | lda src | ldax src =>
    obtain ⟨value, -, set⟩ := exists_of_bind_eq_ok h
    cases set
    exact m.changes_setRegister .a value
  | sta dest | stax dest => exact Machine.changes_write h
  | lhld address =>
    obtain ⟨low, -, rest⟩ := exists_of_bind_eq_ok h
    obtain ⟨high, -, set⟩ := exists_of_bind_eq_ok rest
    exact Machine.changes_setPair set
  | shld address =>
    obtain ⟨half, first, second⟩ := exists_of_bind_eq_ok h
    exact (Machine.changes_write first).trans (Machine.changes_write second)
  | xchg =>
    obtain ⟨half, first, second⟩ := exists_of_bind_eq_ok h
    exact (Machine.changes_setPair first).trans (Machine.changes_setPair second)
  | alu op src =>
    obtain ⟨value, -, done⟩ := exists_of_bind_eq_ok h
    cases done
    exact m.changes_accumulate op value
  | aluImmediate op value =>
    cases h
    exact m.changes_accumulate op value
  | inr loc | dcr loc => exact Machine.changes_count h
  | dad pair =>
    obtain ⟨sum, set, carried⟩ := exists_of_bind_eq_ok h
    cases set
    cases carried
    exact (m.changes_setRegisters .h .l (Word.high (m.pair .hl + m.pair pair))
      (Word.low (m.pair .hl + m.pair pair))).trans (Machine.changes_carry _ _)
  | daa =>
    cases h
    exact (m.changes_setRegister .a _).trans (Machine.changes_flags _ _)
  | cma =>
    cases h
    exact m.changes_setRegister .a _
  | cmc | stc =>
    cases h
    exact m.changes_carry _
  | rlc | rrc | ral | rar =>
    cases h
    exact (m.changes_setRegister .a _).trans (Machine.changes_carry _ _)
  | push pair => exact Machine.changes_push h
  | pop pair =>
    obtain ⟨⟨value, popped⟩, pop, set⟩ := exists_of_bind_eq_ok h
    exact (Machine.changes_pop pop).trans (Machine.changes_setPair set)
  | xthl =>
    obtain ⟨⟨top, popped⟩, pop, rest⟩ := exists_of_bind_eq_ok h
    obtain ⟨pushed, push, set⟩ := exists_of_bind_eq_ok rest
    exact ((Machine.changes_exchange pop push).trans (Machine.changes_setPair set))
  | nop | jmp | jmpIf | call | callIf | ret | retIf | rst | pchl =>
    cases h
    exact (Machine.Changes.refl m).mono (List.nil_subset _)

theorem Machine.changes_transfer {m n : Machine} {next : Offset} {i : Instr} (h : m.transfer next i = .ok n) :
    m.Changes (m.footprint i) n := by
  cases i with
  | jmp address => exact Machine.changes_jump h
  | pchl => exact Machine.changes_jump h
  | jmpIf condition address =>
    have taken := Machine.changes_ite h Machine.changes_jump
    rwa [ite_self] at taken
  | call address => exact Machine.changes_call h
  | callIf condition address => exact Machine.changes_ite h Machine.changes_call
  | ret => exact Machine.changes_ret h
  | retIf condition => exact Machine.changes_ite h Machine.changes_ret
  | rst vector =>
    obtain ⟨pushed, push, rfl⟩ := exists_of_map_eq_ok h
    exact (Machine.changes_push push).goto _
  | _ =>
    cases h
    exact ((Machine.Changes.refl m).goto _).mono (List.nil_subset _)

/-- An instruction either works on the machine and goes on to the next, or transfers control and does no work. -/
theorem Instr.works_or_transfers (i : Instr) :
    (∀ (m : Machine) (next : Offset), m.transfer next i = .ok (m.goto next)) ∨
      ∀ m : Machine, m.perform i = .ok m := by
  cases i with
  | nop | jmp | jmpIf | call | callIf | ret | retIf | rst | pchl => exact .inr fun _ => rfl
  | _ => exact .inl fun _ _ => rfl

theorem Machine.changes_execute {m n : Machine} {i : Instr} (h : m.execute i = .ok n) :
    m.Changes (m.footprint i) n := by
  obtain ⟨k, perform, transfer⟩ := exists_of_bind_eq_ok h
  rcases i.works_or_transfers with works | transfers
  · cases (works k _).symm.trans transfer
    exact (Machine.changes_perform perform).goto _
  · cases (transfers m).symm.trans perform
    exact Machine.changes_transfer transfer

@[simp]
theorem Machine.halted_ne_place (m : Machine) (loc : Loc) : Part.halted ≠ m.place loc := by
  cases loc <;> simp [Machine.place, Part.ofAddress]

@[simp]
theorem Machine.stackPointer_ne_place (m : Machine) (loc : Loc) : Part.stackPointer ≠ m.place loc := by
  cases loc <;> simp [Machine.place, Part.ofAddress]

theorem Machine.halted_not_mem_footprint {i : Instr} (h : i ≠ .hlt) (m : Machine) :
    .halted ∉ m.footprint i := by
  have pair : ∀ p : RegPair, .halted ∉ p.parts := by
    intro p
    cases p <;> decide
  have uncarried : .halted ∉ Flag.uncarried := by decide
  have all : .halted ∉ Flag.all := by decide
  have below : .halted ∉ m.below := by simp [Machine.below]
  cases i with
  | hlt => exact absurd rfl h
  | callIf condition address | retIf condition =>
    simp only [Machine.footprint]
    split <;> simp [below]
  | alu op src | aluImmediate op value =>
    simp only [Machine.footprint]
    split <;> simp [all]
  | _ => simp [Machine.footprint, Part.ofAddress, pair, uncarried, all, below]

theorem Machine.sp_of_push {m n : Machine} {value : UInt16} (h : m.push value = .ok n) :
    n.sp.val + 2 = m.sp.val := by
  obtain ⟨k, room, rfl⟩ := Machine.push_eq_ok h
  exact room.symm

theorem Machine.sp_of_call {m n : Machine} {next : Offset} {address : UInt16}
    (h : m.call next address = .ok n) : n.sp.val + 2 = m.sp.val := by
  obtain ⟨target, -, h⟩ := exists_of_bind_eq_ok h
  obtain ⟨pushed, push, done⟩ := exists_of_bind_eq_ok h
  cases done
  have moved : pushed.sp.val + 2 = m.sp.val := Machine.sp_of_push push
  exact moved

theorem Machine.sp_of_ret {m n : Machine} (h : m.ret = .ok n) : n.sp.val = m.sp.val + 2 := by
  obtain ⟨⟨address, popped⟩, pop, jump⟩ := exists_of_bind_eq_ok h
  have kept : n.sp = popped.sp := Machine.changes_jump jump .stackPointer List.not_mem_nil
  rw [kept]
  exact (Machine.pop_eq_ok pop).2.2

theorem Machine.movesStack_of_pair {m n : Machine} {pair : RegPair} {value : UInt16}
    (h : m.setPair pair value = .ok n) : if pair = .sp then n.pair .sp = value else n.sp = m.sp := by
  split
  next hp => exact Machine.pair_sp_of_setPair (hp ▸ h)
  next hp =>
    refine Machine.changes_setPair h .stackPointer ?_
    cases pair with
    | sp => exact absurd rfl hp
    | _ => decide

theorem Machine.movesStack_execute {m n : Machine} {i : Instr} (canonical : i.Canonical)
    (h : m.execute i = .ok n) : m.MovesStack i n := by
  have kept : .stackPointer ∉ m.footprint i → n.sp = m.sp := Machine.changes_execute h .stackPointer
  obtain ⟨k, perform, transfer⟩ := exists_of_bind_eq_ok h
  cases i with
  | lxi pair value =>
    cases transfer
    have moved := Machine.movesStack_of_pair perform
    cases pair <;> exact moved
  | inx pair | dcx pair =>
    cases transfer
    have moved := Machine.movesStack_of_pair perform
    cases pair <;> exact moved
  | sphl =>
    cases transfer
    have set : k.pair .sp = m.pair .hl := Machine.pair_sp_of_setPair perform
    exact set
  | push pair =>
    cases transfer
    have lowered : k.sp.val + 2 = m.sp.val := Machine.sp_of_push perform
    exact lowered
  | pop pair =>
    cases transfer
    obtain ⟨⟨value, popped⟩, pop, set⟩ := exists_of_bind_eq_ok perform
    have moved := Machine.movesStack_of_pair set
    rw [if_neg canonical] at moved
    have raised : k.sp.val = m.sp.val + 2 := by
      rw [moved]
      exact (Machine.pop_eq_ok pop).2.2
    exact raised
  | call address =>
    cases perform
    exact Machine.sp_of_call transfer
  | callIf condition address =>
    cases perform
    change if condition.holds m.flags then n.sp.val + 2 = m.sp.val else n.sp = m.sp
    rcases Machine.ite_eq_ok transfer with ⟨holds, call⟩ | ⟨fails, rfl⟩
    · rw [if_pos holds]
      exact Machine.sp_of_call call
    · simp [fails, Machine.goto]
  | ret =>
    cases perform
    exact Machine.sp_of_ret transfer
  | retIf condition =>
    cases perform
    change if condition.holds m.flags then n.sp.val = m.sp.val + 2 else n.sp = m.sp
    rcases Machine.ite_eq_ok transfer with ⟨holds, ret⟩ | ⟨fails, rfl⟩
    · rw [if_pos holds]
      exact Machine.sp_of_ret ret
    · simp [fails, Machine.goto]
  | rst vector =>
    cases perform
    obtain ⟨pushed, push, rfl⟩ := exists_of_map_eq_ok transfer
    have lowered : pushed.sp.val + 2 = m.sp.val := Machine.sp_of_push push
    exact lowered
  | alu op src | aluImmediate op value =>
    refine kept ?_
    simp only [Machine.footprint]
    split <;> decide
  | _ =>
    refine kept ?_
    simp [Machine.footprint, Part.ofAddress, RegPair.parts, Flag.all, Flag.uncarried]

theorem Machine.step_eq_executed {m n : Machine} {i : Instr} (h : m.step = .ok (.executed i n)) :
    m.halted = false ∧ m.current? = some i ∧ m.execute i = .ok n := by
  cases running : m.halted with
  | true =>
    simp only [Machine.step, running, if_true] at h
    cases h
  | false =>
    rcases Machine.step_cases running with
      ⟨-, fault⟩ | ⟨j, current, ⟨address, -, fault⟩ | ⟨-, k, execute, done⟩⟩
    · cases fault.symm.trans h
    · cases fault.symm.trans h
    · cases done.symm.trans h
      exact ⟨rfl, current, execute⟩

/-- An executed instruction changes nothing outside its footprint, and moves the stack pointer by what it puts
on the stack or takes off it. -/
theorem Machine.step_footprint {m n : Machine} {i : Instr} (h : m.step = .ok (.executed i n)) :
    m.Changes (m.footprint i) n ∧ m.MovesStack i n ∧ n.halted = decide (i = .hlt) ∧
      (m.footprint i = [] → n = { m with pc := n.pc }) := by
  obtain ⟨running, current, execute⟩ := Machine.step_eq_executed h
  have changes := Machine.changes_execute execute
  refine ⟨changes, Machine.movesStack_execute (Instr.canonical_of_decode current) execute, ?_, ?_⟩
  · by_cases hi : i = .hlt
    · subst hi
      cases execute
      rfl
    · have kept : n.halted = m.halted := changes .halted (Machine.halted_not_mem_footprint hi m)
      simp [kept, running, hi]
  · intro none
    rw [none] at changes
    exact changes.eq_of_nil

set_option maxRecDepth 4000 in
/-- In a memory full of `push psw`, the first step fills the two topmost cells. -/
theorem Machine.step_footprint_push :
    ∃ n, (Machine.ofImage (Vector.replicate windowSize 0xF5)).step = .ok (.executed (.push .psw) n) ∧
      (Machine.ofImage (Vector.replicate windowSize 0xF5)).Changes [.stackPointer, .cell 943, .cell 942] n ∧
      n.sp.val + 2 = 944 ∧ n.halted = false := by
  have step : (Machine.ofImage (Vector.replicate windowSize 0xF5)).step = .ok (.executed (.push .psw)
      { memory := ((Vector.replicate windowSize 0xF5).set 943 0x00).set 942 0x02, pc := 1, sp := 942 }) := rfl
  obtain ⟨changes, lowered, halted, _⟩ := Machine.step_footprint step
  exact ⟨_, step, changes, lowered, halted⟩

end I8080
