import I8080.Proofs.Encoding
import I8080.Proofs.WordExecute

namespace I8080

/-- Whether there is an instruction depends on nothing but its opcode. -/
theorem Instr.isNone_decodeFirst (y z : Digit) (value value' : UInt8) (word word' : UInt16) :
    (Instr.decodeFirst y z value word).isNone = (Instr.decodeFirst y z value' word').isNone := by
  unfold Instr.decodeFirst
  dsimp only
  split <;> first | rfl | (split <;> rfl)

theorem Instr.isNone_decodeLast (y z : Digit) (value value' : UInt8) (word word' : UInt16) :
    (Instr.decodeLast y z value word).isNone = (Instr.decodeLast y z value' word').isNone := by
  unfold Instr.decodeLast
  dsimp only
  split <;> first | rfl | (split <;> rfl)

theorem Instr.isNone_decode (opcode low high low' high' : UInt8) :
    (Instr.decode opcode low high).isNone = (Instr.decode opcode low' high').isNone := by
  unfold Instr.decode
  dsimp only
  split
  next => exact Instr.isNone_decodeFirst _ _ _ _ _ _
  next => rfl
  next => rfl
  next => exact Instr.isNone_decodeLast _ _ _ _ _ _

/-- The instruction at the program counter, if the bytes there are one. -/
def Machine.current? (m : Machine) : Option Instr :=
  Instr.decode (m.memory.wrapped m.pc) (m.memory.wrapped (m.pc + 1)) (m.memory.wrapped (m.pc + 2))

theorem Machine.take_bytes (m : Machine) {size : Nat} (h : size ≤ 3) :
    [m.memory.wrapped m.pc, m.memory.wrapped (m.pc + 1), m.memory.wrapped (m.pc + 2)].take size =
      (List.range size).map fun d => m.memory.wrapped (m.pc + d) := by
  have three : [m.memory.wrapped m.pc, m.memory.wrapped (m.pc + 1), m.memory.wrapped (m.pc + 2)] =
      (List.range 3).map fun d => m.memory.wrapped (m.pc + d) := rfl
  rw [three, ← List.map_take, List.take_range, Nat.min_eq_left h]

theorem Machine.fetch_of_some {m : Machine} {i : Instr} (h : m.current? = some i) : m.fetch = .ok i := by
  have opcode : m.memory.wrapped m.pc.val = m.memory[m.pc] := Image.wrapped_of_lt _ m.pc.isLt
  rw [Machine.current?, opcode] at h
  simp only [Machine.fetch, h]

theorem Machine.fetch_of_none {m : Machine} (h : m.current? = none) :
    m.fetch = .error (.unknownOpcode (m.memory.wrapped m.pc) m.pc) := by
  have opcode : m.memory.wrapped m.pc.val = m.memory[m.pc] := Image.wrapped_of_lt _ m.pc.isLt
  rw [Machine.current?, opcode] at h
  simp only [Machine.fetch, h, opcode]

/-- A step does one of three things, as the bytes at the program counter and the demands of the instruction
that they are decide. -/
theorem Machine.step_cases {m : Machine} (running : m.halted = false) :
    (m.current? = none ∧ m.step = .error (.unknownOpcode (m.memory.wrapped m.pc) m.pc)) ∨
      ∃ i, m.current? = some i ∧
        ((∃ address, m.blame? (m.demands i) = some address ∧ m.step = .error (.addressOutOfRange address m.pc)) ∨
          m.blame? (m.demands i) = none ∧ ∃ n, m.execute i = .ok n ∧ m.step = .ok (.executed i n)) := by
  rw [Machine.step_of_running running]
  cases hc : m.current? with
  | none =>
    rw [Machine.fetch_of_none hc]
    exact .inl ⟨rfl, rfl⟩
  | some i =>
    rw [Machine.fetch_of_some hc]
    have answers := m.answers_execute (Instr.canonical_of_decode hc)
    refine .inr ⟨i, rfl, ?_⟩
    unfold Machine.Answers at answers
    cases hb : m.blame? (m.demands i) with
    | some address =>
      rw [hb] at answers
      refine .inl ⟨address, rfl, ?_⟩
      change (m.execute i).map (Step.executed i) = _
      rw [answers]
      rfl
    | none =>
      rw [hb] at answers
      obtain ⟨n, ok⟩ := answers
      refine .inr ⟨rfl, n, ok, ?_⟩
      change (m.execute i).map (Step.executed i) = _
      rw [ok]
      rfl

theorem Machine.current?_eq_none_iff (m : Machine) :
    m.current? = none ↔ ∀ low high, Instr.decode (m.memory.wrapped m.pc) low high = none := by
  constructor
  · intro h low high
    have same := Instr.isNone_decode (m.memory.wrapped m.pc) low high (m.memory.wrapped (m.pc + 1))
      (m.memory.wrapped (m.pc + 2))
    rw [← Machine.current?, h] at same
    exact Option.isNone_iff_eq_none.mp same
  · intro h
    exact h _ _

/-- When a step fails, what it says then, and that it leaves the machine as it was. -/
theorem Machine.step_faults_exactly (m : Machine) (running : m.halted = false) :
    (∀ opcode pc, m.step = .error (.unknownOpcode opcode pc) ↔
        pc = m.pc ∧ opcode = m.memory.wrapped m.pc ∧ ∀ low high, Instr.decode opcode low high = none) ∧
      (∀ address pc, m.step = .error (.addressOutOfRange address pc) ↔
        pc = m.pc ∧ ∃ i, m.current? = some i ∧ m.blame? (m.demands i) = some address) ∧
      ((∃ s, m.step = .ok s) ↔ ∃ i, m.current? = some i ∧ m.blame? (m.demands i) = none) ∧
      ∀ fault, m.step = .error fault →
        Process.step.exec m.toWords = some (.error fault.toWords, m.toWords) := by
  have unchanged : ∀ fault, m.step = .error fault →
      Process.step.exec m.toWords = some (.error fault.toWords, m.toWords) := by
    intro fault h
    have in_place := Process.commits_step m
    rw [h] at in_place
    exact in_place
  have unknown := m.current?_eq_none_iff
  rcases Machine.step_cases running with
    ⟨none, fault⟩ | ⟨i, current, ⟨address, blamed, fault⟩ | ⟨met, n, executed, done⟩⟩
  · refine ⟨fun opcode pc => ⟨?_, ?_⟩, ?_, ?_, unchanged⟩
    · intro h
      cases fault.symm.trans h
      exact ⟨rfl, rfl, unknown.mp none⟩
    · rintro ⟨rfl, rfl, _⟩
      exact fault
    · simp [fault, none]
    · simp [fault, none]
  · refine ⟨fun opcode pc => ⟨?_, ?_⟩, fun address' pc => ⟨?_, ?_⟩, ?_, unchanged⟩
    · intro h
      cases fault.symm.trans h
    · rintro ⟨rfl, rfl, no⟩
      rw [unknown.mpr no] at current
      cases current
    · intro h
      cases fault.symm.trans h
      exact ⟨rfl, i, current, blamed⟩
    · rintro ⟨rfl, j, current', blamed'⟩
      cases current.symm.trans current'
      cases blamed.symm.trans blamed'
      exact fault
    · simp [fault, current, blamed]
  · refine ⟨fun opcode pc => ⟨?_, ?_⟩, ?_, ?_, unchanged⟩
    · intro h
      cases done.symm.trans h
    · rintro ⟨rfl, rfl, no⟩
      rw [unknown.mpr no] at current
      cases current
    · simp [done, current, met]
    · simp [done, current, met]

/-- A memory full of `pop b` fails at once, for the stack is empty. -/
theorem Machine.step_faults_exactly_pop :
    (Machine.ofImage (Vector.replicate windowSize 0xC1)).halted = false ∧
      (Machine.ofImage (Vector.replicate windowSize 0xC1)).step =
        .error (.addressOutOfRange 0x0BB0 (Offset.wrap 0)) := by
  refine ⟨rfl, ((Machine.step_faults_exactly _ rfl).2.1 0x0BB0 (Offset.wrap 0)).mpr ⟨rfl, .pop .bc, ?_, ?_⟩⟩
  · have byte : ∀ n, Image.wrapped (Vector.replicate windowSize 0xC1) n = 0xC1 := fun n => by simp [Image.wrapped]
    simp only [Machine.current?, Machine.ofImage, byte]
    decide
  · decide

end I8080
