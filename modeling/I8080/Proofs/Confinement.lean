import I8080.Proofs.Boundary
import I8080.Proofs.Conclusion

namespace I8080

/-- Whether an instruction puts something into memory. -/
def Instr.writesMemory : Instr → Bool
  | .mov dest _ | .mvi dest _ | .inr dest | .dcr dest => dest = .mem
  | .sta _ | .shld _ | .stax _ | .push _ | .call _ | .callIf .. | .rst _ | .xthl => true
  | _ => false

/-- Whether the registers or the stack say where an instruction goes on. -/
def Instr.computesTarget : Instr → Bool
  | .ret | .retIf _ | .pchl => true
  | _ => false

/-- The address in a jump. -/
def Instr.target? : Instr → Option UInt16
  | .jmp address | .jmpIf _ address => some address
  | _ => none

/-- The mnemonics of jumps to an address that is written in the program. -/
def Mnemonic.isJump (m : Mnemonic) : Bool :=
  m.name ∈ ["jmp", "jnz", "jz", "jnc", "jc", "jpo", "jpe", "jp", "jm"]

/-- The statement that stands on a source line. -/
def SourceLine.statement? (line : SourceLine) : Option Statement :=
  match line.body with
  | [] => none
  | head :: operands => (Statement.ofTokens head operands).toOption

def statements (source : String) : List Statement :=
  (sourceLines source.toList).filterMap SourceLine.statement?

/-- A program that leaves the memory as it is and jumps to nothing but its labels. -/
structure Restrained (source : String) : Prop where
  keeps : ∀ e ∈ (assemble source).listing, ∀ i ∈ (assemble source).instr? e, i.writesMemory = false
  direct : ∀ e ∈ (assemble source).listing, ∀ i ∈ (assemble source).instr? e, i.computesTarget = false
  labelled : ∀ s ∈ statements source, s.mnemonic.isJump = true → ∀ t ∈ s.operands, t.kind = .ident

theorem SourceLine.statement?_of_emits {line : SourceLine} {labels : LabelTable} {taken : List String}
    {offset : Nat} {e : Emission} (h : line.outcome labels taken offset = .emits e) :
    line.statement? = some e.statement ∧ e.statement.instr labels = .ok e.instr := by
  obtain ⟨head, operands, s, body, statement, outcome⟩ := SourceLine.outcome_emits h
  obtain ⟨made, he, -⟩ := Statement.outcome_emits outcome
  simp only [SourceLine.statement?, body, statement]
  rw [he]
  exact ⟨rfl, made⟩

theorem outcomes_statement {labels : LabelTable} {taken : List String} {offset : Nat} {lines : List SourceLine}
    {e : Emission} (h : .emits e ∈ outcomes labels taken offset lines) :
    e.statement ∈ lines.filterMap SourceLine.statement? ∧ e.statement.instr labels = .ok e.instr := by
  obtain ⟨line, mem, taken, offset, emits⟩ := exists_of_mem_outcomes h
  obtain ⟨stated, made⟩ := SourceLine.statement?_of_emits emits
  exact ⟨List.mem_filterMap.mpr ⟨line, mem, stated⟩, made⟩

theorem emission_statement {source : String} {labels : LabelTable} {e : Emission}
    (h : e ∈ emissions labels source) :
    e.statement ∈ statements source ∧ e.statement.instr labels = .ok e.instr := by
  obtain ⟨o, mem, ho⟩ := List.mem_filterMap.mp h
  rw [Outcome.emission?_eq_some.mp ho] at mem
  exact outcomes_statement mem

theorem statements_mnemonic {source : String} {s : Statement} (h : s ∈ statements source) :
    s.mnemonic ∈ Mnemonic.table := by
  obtain ⟨line, -, stated⟩ := List.mem_filterMap.mp h
  unfold SourceLine.statement? at stated
  split at stated
  next => cases stated
  next head operands _ =>
    cases hs : Statement.ofTokens head operands with
    | error c =>
      rw [hs] at stated
      cases stated
    | ok s =>
      rw [hs] at stated
      cases stated
      exact Statement.mnemonic_mem_table hs

theorem Mnemonic.target_of_build {m : Mnemonic} (hm : m ∈ Mnemonic.table) :
    (m.isJump = true ∧ m.kinds = [.address]) ∨ ∀ values i, m.build values = .ok i → i.target? = none := by
  revert m
  simp only [Mnemonic.table, List.forall_mem_cons]
  repeat' apply And.intro
  all_goals first
    | exact .inl ⟨rfl, trivial⟩
    | exact fun _ h => absurd h List.not_mem_nil
    | exact .inr fun _ _ h => by cases h; rfl
    | exact .inr fun _ _ h => (Mnemonic.build_mov_eq_ok h).2 ▸ rfl

theorem Mnemonic.isJump_of_target {m : Mnemonic} (hm : m ∈ Mnemonic.table) {operands : List Operand} {i : Instr}
    (h : m.instr operands = .ok i) (jumps : i.target? ≠ none) : m.isJump = true ∧ m.kinds = [.address] := by
  rcases Mnemonic.target_of_build hm with jump | none
  · exact jump
  · obtain ⟨length, values, -, built⟩ := Mnemonic.instr_eq_ok h
    exact absurd (none _ _ built) jumps

theorem Instr.encode_of_target {i : Instr} {address : UInt16} (h : i.target? = some address) :
    ∃ opcode, i.encode = withWord opcode address := by
  cases i with
  | jmp target | jmpIf condition target =>
    cases h
    exact ⟨_, rfl⟩
  | _ => cases h

theorem withWord_inj {opcode opcode' : UInt8} {w w' : UInt16} (h : withWord opcode w = withWord opcode' w') :
    w = w' := by
  obtain ⟨-, low, high⟩ : opcode = opcode' ∧ Word.low w = Word.low w' ∧ Word.high w = Word.high w' := by
    simpa [withWord] using h
  rw [← Word.join_low_high w, ← Word.join_low_high w', low, high]

/-- A jump whose operand is a name goes to the address of that label. -/
theorem Statement.target_eq_address {s : Statement} {labels : LabelTable} {i : Instr} {address : UInt16}
    (hm : s.mnemonic ∈ Mnemonic.table) (made : s.instr labels = .ok i) (target : i.target? = some address)
    (labelled : s.mnemonic.isJump = true → ∀ t ∈ s.operands, t.kind = .ident) :
    ∃ name, address = labels.address name := by
  obtain ⟨operands, built⟩ := Statement.instr_eq_ok made
  obtain ⟨jump, kinds⟩ := Mnemonic.isJump_of_target hm built (by simp [target])
  have named := labelled jump
  cases s.meaning hm with
  | fails c instr => cases made.symm.trans (instr labels)
  | fixed j instr closed =>
    have single : s.operands.length = 1 := by rw [s.length_operands, Mnemonic.arity, kinds]; rfl
    obtain ⟨t, ht⟩ := List.length_eq_one_iff.mp single
    have ident : t.kind = .ident := named t (by simp [ht])
    simp [Statement.references, kinds, ht, ident, OperandKind.isWord] at closed
  | refers t build opcode encode instr single =>
    cases made.symm.trans (instr labels)
    obtain ⟨opcode', same⟩ := Instr.encode_of_target target
    exact ⟨t.name, withWord_inj (same.symm.trans (encode _))⟩

theorem Machine.cell_not_mem_footprint {m : Machine} {i : Instr} (h : i.writesMemory = false) (offset : Nat) :
    .cell offset ∉ m.footprint i := by
  have pair : ∀ p : RegPair, .cell offset ∉ p.parts := by
    intro p
    cases p <;> simp [RegPair.parts, Flag.all, Flag.uncarried]
  have uncarried : .cell offset ∉ Flag.uncarried := by simp [Flag.uncarried]
  have all : .cell offset ∉ Flag.all := by simp [Flag.all, Flag.uncarried]
  have place : ∀ loc : Loc, decide (loc = .mem) = false → .cell offset ≠ m.place loc := by
    intro loc reg
    cases loc with
    | reg r => exact Part.noConfusion
    | mem => cases reg
  cases i with
  | mov dest src | mvi dest value => simpa [Machine.footprint] using place dest h
  | inr loc | dcr loc => simpa [Machine.footprint, uncarried] using place loc h
  | sta | shld | stax | push | call | callIf | rst | xthl => cases h
  | alu op src | aluImmediate op value =>
    simp only [Machine.footprint]
    split <;> simp [all]
  | retIf condition =>
    simp only [Machine.footprint]
    split <;> simp
  | _ => simp [Machine.footprint, pair, all]

theorem Machine.memory_of_execute {m n : Machine} {i : Instr} (keeps : i.writesMemory = false)
    (h : m.execute i = .ok n) : n.memory = m.memory :=
  (Machine.changes_execute h).memory fun offset => Machine.cell_not_mem_footprint keeps offset

/-- An instruction that does not compute its target goes on past itself or at the address in it. -/
theorem Machine.pc_of_execute {m n : Machine} {i : Instr} (keeps : i.writesMemory = false)
    (direct : i.computesTarget = false) (h : m.execute i = .ok n) :
    n.pc = m.past i ∨ ∃ address, i.target? = some address ∧ n.pc.val = (address - windowBase).toNat := by
  obtain ⟨k, perform, transfer⟩ := exists_of_bind_eq_ok h
  rcases i.works_or_transfers with works | transfers
  · cases (works k (m.past i)).symm.trans transfer
    exact .inl (Offset.wrap_val _)
  cases (transfers m).symm.trans perform
  cases i with
  | jmp address => exact .inr ⟨address, rfl, Machine.pc_of_jump transfer⟩
  | jmpIf condition address =>
    rcases Machine.ite_eq_ok transfer with ⟨-, jump⟩ | ⟨-, rfl⟩
    · exact .inr ⟨address, rfl, Machine.pc_of_jump jump⟩
    · exact .inl (Offset.wrap_val _)
  | call | callIf | rst => cases keeps
  | ret | retIf | pchl => cases direct
  | _ =>
    cases transfer
    exact .inl (Offset.wrap_val _)

/-- A machine that has the image of a program in memory and stands where an instruction of it starts, or past
its code. -/
structure Machine.Runs (m : Machine) (source : String) : Prop where
  memory : m.memory = (assemble source).image
  pc : (assemble source).Boundary m.pc

theorem Machine.runs_start (source : String) : (Machine.ofImage (assemble source).image).Runs source where
  memory := rfl
  pc := boundary_zero source

namespace Machine.Runs

variable {m : Machine} {source : String}

/-- What such a machine executes next is in the listing, or is one of the zeros past the code. -/
theorem current (h : m.Runs source) :
    (∃ e ∈ emissions (assemble source).labels source, e.offset = m.pc ∧ m.current? = some e.instr) ∨
      (assemble source).size ≤ m.pc ∧ m.current? = some .nop := by
  rcases h.pc with ⟨entry, listed, at_pc⟩ | past
  · rw [assemble_listing] at listed
    obtain ⟨e, emitted, rfl⟩ := List.mem_map.mp listed
    exact .inl ⟨e, emitted, at_pc, current?_emission emitted h.memory at_pc.symm⟩
  · refine .inr ⟨past, ?_⟩
    have zero : m.memory.wrapped m.pc = 0 := by
      rw [h.memory, Image.wrapped_of_lt _ m.pc.isLt]
      exact image_eq_zero m.pc.isLt past
    rw [Machine.current?, zero]
    rfl

theorem fetched (h : m.Runs source) {i : Instr} (current : m.current? = some i) :
    (∃ e ∈ emissions (assemble source).labels source, e.offset = m.pc ∧ e.instr = i) ∨
      (assemble source).size ≤ m.pc ∧ i = .nop := by
  rcases h.current with ⟨e, emitted, at_pc, found⟩ | ⟨past, found⟩
  · exact .inl ⟨e, emitted, at_pc, Option.some.inj (found.symm.trans current)⟩
  · exact .inr ⟨past, Option.some.inj (current.symm.trans found)⟩

theorem step (h : m.Runs source) (restrained : Restrained source) {n : Machine} {i : Instr}
    (executed : m.step = .ok (.executed i n)) : n.Runs source := by
  obtain ⟨-, current, execute⟩ := Machine.step_eq_executed executed
  rcases h.fetched current with ⟨e, emitted, at_pc, rfl⟩ | ⟨past, rfl⟩
  · have listed : e.entry ∈ (assemble source).listing := by
      rw [assemble_listing]
      exact List.mem_map_of_mem emitted
    have shown := instr?_entry emitted
    have keeps := restrained.keeps _ listed _ shown
    have direct := restrained.direct _ listed _ shown
    refine ⟨(Machine.memory_of_execute keeps execute).trans h.memory, ?_⟩
    rcases Machine.pc_of_execute keeps direct execute with next | ⟨address, target, jumped⟩
    · rw [next, Machine.past, ← at_pc]
      exact boundary_wrap (boundary_past listed) (emission_fits emitted)
    · -- The address is that of a label; 0, which stands for a label that has none, is outside the window.
      obtain ⟨stated, made⟩ := emission_statement emitted
      obtain ⟨name, rfl⟩ := Statement.target_eq_address (statements_mnemonic stated) made target
        (restrained.labelled _ stated)
      cases known : (assemble source).labels.get? name with
      | none =>
        have inside := n.pc.isLt
        rw [jumped, LabelTable.address_of_get?_none known] at inside
        exact absurd inside (by decide)
      | some address =>
        obtain ⟨offset, inside, rfl, boundary⟩ := label_boundary known
        have back : (addressOf offset - windowBase).toNat = offset := by
          rw [addressOf, UInt16.add_comm, UInt16.add_sub_cancel, toNat_ofNat_of_le_windowSize inside]
        rw [jumped, LabelTable.address_of_get? known, back]
        exact boundary
  · refine ⟨(Machine.memory_of_execute rfl execute).trans h.memory, ?_⟩
    rcases Machine.pc_of_execute rfl rfl execute with next | ⟨address, target, -⟩
    · rw [next, Machine.past]
      exact boundary_wrap (.inr (Nat.le_add_right_of_le past)) m.pc.isLt
    · cases target

theorem next (h : m.Runs source) (restrained : Restrained source) {n : Machine} (hn : m.next = .ok n) :
    n.Runs source := by
  obtain ⟨taken, step, done⟩ := exists_of_bind_eq_ok hn
  cases taken with
  | executed i result =>
    cases done
    exact h.step restrained step
  | halted =>
    cases done
    exact h

theorem after? (h : m.Runs source) (restrained : Restrained source) {k : Nat} {s : Machine}
    (reached : m.after? k = some s) : s.Runs source := by
  induction k generalizing s with
  | zero =>
    cases reached
    exact h
  | succ k ih =>
    obtain ⟨before, earlier, next⟩ := Option.bind_eq_some_iff.mp reached
    cases hn : before.next with
    | error fault =>
      rw [hn] at next
      cases next
    | ok n =>
      rw [hn] at next
      cases next
      exact (ih earlier).next restrained hn

end Machine.Runs

/-- A program that leaves the memory as it is and jumps to nothing but its labels executes only what is listed,
and zeros past its code. It need not be free of diagnostics. -/
theorem restrained_executes_listing {source : String} (h : Restrained source) {k : Nat} {s : Machine}
    (reached : (Machine.ofImage (assemble source).image).after? k = some s) :
    let a := assemble source
    ((∃ e ∈ a.listing, e.offset = s.pc) ∨ a.size ≤ s.pc) ∧ s.memory = a.image ∧
      (∀ i n, s.step = .ok (.executed i n) →
        (∃ e ∈ a.listing, e.offset = s.pc ∧ a.instr? e = some i) ∨ (a.size ≤ s.pc ∧ i = .nop)) ∧
      ∀ opcode pc, s.step ≠ .error (.unknownOpcode opcode pc) := by
  intro a
  have runs := (Machine.runs_start source).after? h reached
  refine ⟨runs.pc, runs.memory, ?_, ?_⟩
  · intro i n executed
    obtain ⟨-, current, -⟩ := Machine.step_eq_executed executed
    rcases runs.fetched current with ⟨e, emitted, at_pc, rfl⟩ | past
    · refine .inl ⟨e.entry, ?_, at_pc, instr?_entry emitted⟩
      change e.entry ∈ (assemble source).listing
      rw [assemble_listing]
      exact List.mem_map_of_mem emitted
    · exact .inr past
  · intro opcode pc fails
    have known : s.current? ≠ none := by
      rcases runs.current with ⟨e, -, -, found⟩ | ⟨-, found⟩ <;> simp [found]
    cases running : s.halted with
    | true => cases fails.symm.trans (Machine.step_of_halted running)
    | false =>
      rcases Machine.step_cases running with ⟨none, -⟩ | ⟨i, -, ⟨address, -, fault⟩ | ⟨-, n, -, executed⟩⟩
      · exact known none
      · cases fails.symm.trans fault
      · cases fails.symm.trans executed

/-- A loop, which two steps take back to its start. -/
theorem restrained_executes_listing_loop :
    let source := "a: inr b\njnz a\nhlt"
    let a := assemble source
    Restrained source ∧ ∃ s, (Machine.ofImage a.image).after? 2 = some s ∧ s.pc = 0 ∧ s.memory = a.image ∧
      (∀ i n, s.step = .ok (.executed i n) →
        (∃ e ∈ a.listing, e.offset = s.pc ∧ a.instr? e = some i) ∨ (a.size ≤ s.pc ∧ i = .nop)) ∧
      ∀ opcode pc, s.step ≠ .error (.unknownOpcode opcode pc) := by
  intro source a
  have restrained : Restrained source := ⟨by decide +kernel, by decide +kernel, by decide +kernel⟩
  have loops : ((Machine.ofImage a.image).after? 2).map Machine.pc = some 0 := by decide +kernel
  obtain ⟨s, reached, start⟩ := Option.map_eq_some_iff.mp loops
  obtain ⟨-, memory, executed, known⟩ := restrained_executes_listing restrained reached
  exact ⟨restrained, s, reached, start, memory, executed, known⟩

end I8080
