import I8080.Proofs.Footprint
import I8080.Proofs.Listing

namespace I8080

/-- The cells that the bytes of an instruction at the program counter stand in. -/
def Machine.codeCells (m : Machine) (i : Instr) : List Part :=
  (List.range i.size).map fun d => .cell (Offset.wrap (m.pc + d)).val

def Machine.operandCells (m : Machine) : Loc → List Part
  | .reg _ => []
  | .mem => [.ofAddress (m.pair .hl)]

/-- The two cells of the word on top of the stack. -/
def Machine.topCells (m : Machine) : List Part :=
  [.cell m.sp.val, .cell (m.sp.val + 1)]

/-- The cells that an instruction reads as data. -/
def Machine.dataCells (m : Machine) : Instr → List Part
  | .mov _ loc | .alu _ loc | .inr loc | .dcr loc => m.operandCells loc
  | .lda address => [.ofAddress address]
  | .lhld address => [.ofAddress address, .ofAddress (address + 1)]
  | .ldax pair => [.ofAddress (m.pair pair)]
  | .pop _ | .ret | .xthl => m.topCells
  | .retIf condition => if condition.holds m.flags then m.topCells else []
  | _ => []

/-- A machine with another byte in one cell. -/
def Machine.poke (m : Machine) (k : Offset) (value : UInt8) : Machine :=
  { m with memory := m.memory.set k.val value k.isLt }

/-- Two images that differ in the cell `k` at most. In it they hold the same byte, or the first holds `old` and the
second `new`. -/
structure Image.Twin (k : Offset) (old new : UInt8) (image other : Image) : Prop where
  others : ∀ j : Offset, j ≠ k → other.get j = image.get j
  cell : other.get k = image.get k ∨ image.get k = old ∧ other.get k = new

/-- Two machines that differ in nothing but one cell of their memory. -/
inductive Machine.Twin (k : Offset) (old new : UInt8) (m : Machine) : Machine → Prop
  | of {image : Image} (memory : Image.Twin k old new m.memory image) : Twin k old new m { m with memory := image }

theorem Image.get_eq (image : Image) (k : Offset) : image.get k = getElem image k.val k.isLt :=
  rfl

theorem Image.Twin.set {k : Offset} {old new : UInt8} {image other : Image} (h : Image.Twin k old new image other)
    {offset : Nat} (inside : offset < windowSize) (value : UInt8) :
    Image.Twin k old new (image.set offset value inside) (other.set offset value inside) := by
  have read : ∀ (image : Image) (j : Offset), (image.set offset value inside).get j =
      if offset = j.val then value else image.get j := fun image j => Vector.getElem_set inside j.isLt
  refine ⟨?_, ?_⟩
  · intro j hj
    rw [read, read, h.others j hj]
  · rw [read, read]
    split
    next => exact .inl rfl
    next => exact h.cell

theorem Machine.twin_poke (m : Machine) (k : Offset) (value : UInt8) :
    Machine.Twin k (m.memory.get k) value m (m.poke k value) := by
  refine .of ⟨?_, .inr ⟨rfl, by simp [Image.get_eq]⟩⟩
  intro j hj
  have apart : k.val ≠ j.val := fun same => hj (Fin.ext same.symm)
  simp [Image.get_eq, apart]

namespace Machine.Twin

variable {k : Offset} {old new : UInt8} {m n : Machine}

theorem pair (h : Twin k old new m n) (p : RegPair) : n.pair p = m.pair p := by
  cases h
  rfl

theorem offsetOf (h : Twin k old new m n) (address : UInt16) : n.offsetOf address = m.offsetOf address := by
  cases h
  rfl

theorem read (h : Twin k old new m n) {address : UInt16} (unread : .cell k.val ≠ Part.ofAddress address) :
    Alike Eq Eq (m.read address) (n.read address) := by
  unfold Machine.read
  rw [h.offsetOf]
  cases found : m.offsetOf address with
  | error f => exact .error rfl
  | ok offset =>
    have apart : offset ≠ k := by
      rintro rfl
      exact unread (congrArg Part.cell (Machine.offsetOf_eq_ok found))
    obtain ⟨memory⟩ := h
    exact .ok (memory.others offset apart).symm

theorem load (h : Twin k old new m n) {loc : Loc} (unread : .cell k.val ∉ m.operandCells loc) :
    Alike Eq Eq (m.load loc) (n.load loc) := by
  cases loc with
  | reg r =>
    cases h
    exact .ok rfl
  | mem =>
    have apart : .cell k.val ≠ Part.ofAddress (m.pair .hl) := List.ne_of_not_mem_cons unread
    have address := h.pair .hl
    unfold Machine.load
    rw [address]
    exact h.read apart

theorem write (h : Twin k old new m n) (address : UInt16) (value : UInt8) :
    Alike Eq (Twin k old new) (m.write address value) (n.write address value) := by
  have same := Alike.refl (m.offsetOf address)
  unfold Machine.write
  rw [h.offsetOf]
  refine same.map ?_
  rintro offset _ rfl
  obtain ⟨memory⟩ := h
  exact .of (memory.set offset.isLt value)

theorem setRegister (h : Twin k old new m n) (r : Register) (value : UInt8) :
    Twin k old new (m.setRegister r value) (n.setRegister r value) := by
  obtain ⟨memory⟩ := h
  exact .of memory

theorem store (h : Twin k old new m n) (loc : Loc) (value : UInt8) :
    Alike Eq (Twin k old new) (m.store loc value) (n.store loc value) := by
  cases loc with
  | reg r => exact .ok (h.setRegister r value)
  | mem =>
    unfold Machine.store
    rw [h.pair .hl]
    exact h.write (m.pair .hl) value

theorem setPair (h : Twin k old new m n) (p : RegPair) (value : UInt16) :
    Alike Eq (Twin k old new) (m.setPair p value) (n.setPair p value) := by
  obtain ⟨memory⟩ := h
  cases p with
  | sp =>
    unfold Machine.setPair
    dsimp only
    split
    next => exact .ok (.of memory)
    next => exact .error rfl
  | _ => exact .ok (.of memory)

theorem goto (h : Twin k old new m n) (target : Nat) : Twin k old new (m.goto target) (n.goto target) := by
  obtain ⟨memory⟩ := h
  exact .of memory

theorem push (h : Twin k old new m n) (value : UInt16) :
    Alike Eq (Twin k old new) (m.push value) (n.push value) := by
  obtain @⟨image, memory⟩ := h
  by_cases full : m.sp.val < 2
  · rw [Machine.push_of_full full, Machine.push_of_full (m := { m with memory := image }) full]
    exact .error rfl
  · have room : m.sp.val = m.sp.val - 2 + 2 := by omega
    rw [Machine.push_of_room room, Machine.push_of_room (m := { m with memory := image }) room]
    exact .ok (.of ((memory.set _ (Word.high value)).set _ (Word.low value)))

/-- A pop that reads neither of two different bytes takes the same word off both stacks. -/
theorem pop (h : Twin k old new m n) (unread : .cell k.val ∉ m.topCells) :
    Alike Eq (fun a b => b.1 = a.1 ∧ Twin k old new a.2 b.2) m.pop n.pop := by
  obtain @⟨image, memory⟩ := h
  obtain ⟨low, high⟩ : k.val ≠ m.sp.val ∧ k.val ≠ m.sp.val + 1 := by simpa [Machine.topCells] using unread
  by_cases word : m.sp.val + 2 ≤ windowSize
  · have first := memory.others ⟨m.sp.val, Nat.lt_of_succ_lt word⟩ fun same => low (congrArg Fin.val same.symm)
    have second := memory.others ⟨m.sp.val + 1, word⟩ fun same => high (congrArg Fin.val same.symm)
    rw [Machine.pop_of_word word, Machine.pop_of_word (m := { m with memory := image }) word]
    exact .ok ⟨congrArg₂ Word.join first second, .of memory⟩
  · rw [Machine.pop_of_short (Nat.lt_of_not_le word),
      Machine.pop_of_short (m := { m with memory := image }) (Nat.lt_of_not_le word)]
    exact .error rfl

theorem accumulate (h : Twin k old new m n) (op : AluOp) (value : UInt8) :
    Twin k old new (m.accumulate op value) (n.accumulate op value) := by
  obtain ⟨memory⟩ := h
  exact .of memory

theorem count (h : Twin k old new m n) {loc : Loc} (unread : .cell k.val ∉ m.operandCells loc) (delta : UInt16) :
    Alike Eq (Twin k old new) (m.count loc delta) (n.count loc delta) := by
  have flags : n.flags = m.flags := by
    cases h
    rfl
  unfold Machine.count
  rw [flags]
  refine (h.load unread).bind ?_
  rintro value _ rfl
  refine (h.store loc _).bind ?_
  rintro stored stored' ⟨memory⟩
  exact .ok (.of memory)

theorem perform (twin : Twin k old new m n) {i : Instr} (unread : .cell k.val ∉ m.dataCells i) :
    Alike Eq (Twin k old new) (m.perform i) (n.perform i) := by
  obtain @⟨image, memory⟩ := id twin
  cases i with
  | mov dest src =>
    refine (twin.load unread).bind ?_
    rintro value _ rfl
    exact twin.store dest value
  | mvi dest value => exact twin.store dest value
  | lxi pair value => exact twin.setPair pair value
  | inx pair | dcx pair => exact twin.setPair pair _
  | sphl => exact twin.setPair .sp _
  | lda address =>
    refine (twin.read (List.ne_of_not_mem_cons unread)).bind ?_
    rintro value _ rfl
    exact .ok (twin.setRegister .a value)
  | ldax pair =>
    have apart : .cell k.val ≠ Part.ofAddress (m.pair pair) := List.ne_of_not_mem_cons unread
    refine (twin.read apart).bind ?_
    rintro value _ rfl
    exact .ok (twin.setRegister .a value)
  | sta address => exact twin.write address m.registers.a
  | stax pair => exact twin.write (m.pair pair) m.registers.a
  | lhld address =>
    refine (twin.read (List.ne_of_not_mem_cons unread)).bind ?_
    rintro value _ rfl
    refine (twin.read (List.ne_of_not_mem_cons (List.not_mem_of_not_mem_cons unread))).bind ?_
    rintro value' _ rfl
    exact twin.setPair .hl _
  | shld address =>
    refine (twin.write address m.registers.l).bind ?_
    intro half half' both
    exact both.write (address + 1) m.registers.h
  | xchg =>
    refine (twin.setPair .de (m.pair .hl)).bind ?_
    intro half half' both
    exact both.setPair .hl (m.pair .de)
  | alu op src =>
    refine (twin.load unread).bind ?_
    rintro value _ rfl
    exact .ok (twin.accumulate op value)
  | aluImmediate op value => exact .ok (twin.accumulate op value)
  | inr loc | dcr loc => exact twin.count unread _
  | dad pair =>
    refine (twin.setPair .hl (m.pair .hl + m.pair pair)).bind ?_
    rintro _ _ ⟨sum⟩
    exact .ok (.of sum)
  | push pair => exact twin.push (m.pair pair)
  | pop pair =>
    refine (twin.pop unread).bind ?_
    rintro ⟨_, popped⟩ ⟨value, popped'⟩ ⟨rfl, both⟩
    exact both.setPair pair value
  | xthl =>
    refine (twin.pop unread).bind ?_
    rintro ⟨_, popped⟩ ⟨value, popped'⟩ ⟨rfl, both⟩
    refine (both.push (m.pair .hl)).bind ?_
    intro pushed pushed' again
    exact again.setPair .hl value
  | hlt | daa | cma | cmc | stc | rlc | rrc | ral | rar => exact .ok (.of memory)
  | nop | jmp | jmpIf | call | callIf | ret | retIf | rst | pchl => exact .ok twin

theorem jump (h : Twin k old new m n) (address : UInt16) :
    Alike Eq (Twin k old new) (m.jump address) (n.jump address) := by
  rw [Machine.jump_eq, Machine.jump_eq, h.offsetOf]
  refine (Alike.refl _).map ?_
  rintro offset _ rfl
  exact h.goto offset.val

theorem call (h : Twin k old new m n) (next : Offset) (address : UInt16) :
    Alike Eq (Twin k old new) (m.call next address) (n.call next address) := by
  unfold Machine.call
  rw [h.offsetOf]
  refine (Alike.refl _).bind ?_
  rintro target _ rfl
  refine (h.push (addressOf next)).bind ?_
  intro pushed pushed' both
  exact .ok (both.goto target.val)

theorem ret (h : Twin k old new m n) (unread : .cell k.val ∉ m.topCells) :
    Alike Eq (Twin k old new) m.ret n.ret := by
  refine (h.pop unread).bind ?_
  rintro ⟨_, popped⟩ ⟨address, popped'⟩ ⟨rfl, both⟩
  exact both.jump address

theorem branch (h : Twin k old new m n) {condition : Bool} {next : Offset} {x y : Except Fault Machine}
    (taken : condition = true → Alike Eq (Twin k old new) x y) :
    Alike Eq (Twin k old new) (if condition then x else .ok (m.goto next))
      (if condition then y else .ok (n.goto next)) := by
  cases condition with
  | true => exact taken rfl
  | false => exact .ok (h.goto next)

theorem transfer (twin : Twin k old new m n) (next : Offset) {i : Instr} (unread : .cell k.val ∉ m.dataCells i) :
    Alike Eq (Twin k old new) (m.transfer next i) (n.transfer next i) := by
  obtain @⟨image, memory⟩ := id twin
  cases i with
  | jmp address => exact twin.jump address
  | jmpIf condition address => exact twin.branch fun _ => twin.jump address
  | call address => exact twin.call next address
  | callIf condition address => exact twin.branch fun _ => twin.call next address
  | ret => exact twin.ret unread
  | retIf condition =>
    refine twin.branch fun holds => twin.ret ?_
    have cells : m.dataCells (.retIf condition) = m.topCells := if_pos holds
    exact cells ▸ unread
  | rst vector =>
    refine (twin.push (addressOf next)).map ?_
    intro pushed pushed' both
    exact both.goto _
  | pchl => exact twin.jump (m.pair .hl)
  | _ => exact .ok (twin.goto next)

theorem execute (twin : Twin k old new m n) {i : Instr} (unread : .cell k.val ∉ m.dataCells i) :
    Alike Eq (Twin k old new) (m.execute i) (n.execute i) := by
  have past : n.past i = m.past i := by
    cases twin
    rfl
  unfold Machine.execute
  rw [past]
  rcases i.works_or_transfers with works | transfers
  · refine (twin.perform unread).bind ?_
    intro done done' both
    rw [works, works]
    exact .ok (both.goto _)
  · rw [transfers, transfers]
    exact twin.transfer (m.past i) unread

/-- The bytes of the instruction are all that a fetch depends on. -/
theorem current? (twin : Twin k old new m n) {i : Instr} (current : m.current? = some i)
    (unread : .cell k.val ∉ m.codeCells i) : n.current? = some i := by
  obtain @⟨image, memory⟩ := twin
  refine Machine.current?_of_encode (Instr.canonical_of_decode current) ?_
  intro d hd
  have apart : Offset.wrap (m.pc + d) ≠ k := by
    intro same
    refine unread (List.mem_map.mpr ⟨d, List.mem_range.mpr hd, ?_⟩)
    rw [same]
  have byte : image.wrapped (m.pc + d) = m.memory.wrapped (m.pc + d) := memory.others _ apart
  rw [Instr.encode_of_decode current, m.take_bytes i.size_le, byte]
  simp [hd]

end Machine.Twin

/-- A step depends on no cell but those of the instruction's own bytes and those that it reads as data. With another
byte in any other cell it fails in the same way, or ends in the same state up to that cell, which then holds the
byte that the instruction has put there or is as it was. -/
theorem Machine.step_reads_only {m : Machine} {i : Instr} (running : m.halted = false) (fetched : m.fetch = .ok i)
    {k : Offset} (unread : .cell k.val ∉ m.codeCells i ++ m.dataCells i) (value : UInt8) :
    (m.poke k value).fetch = .ok i ∧
      ((∃ fault, m.step = .error fault ∧ (m.poke k value).step = .error fault) ∨
        ∃ n n', m.step = .ok (.executed i n) ∧ (m.poke k value).step = .ok (.executed i n') ∧
          n' = { n with memory := n'.memory } ∧ (∀ j : Offset, j ≠ k → n'.memory.get j = n.memory.get j) ∧
          (.cell k.val ∈ m.footprint i ∧ n'.memory.get k = n.memory.get k ∨
            n.memory.get k = m.memory.get k ∧ n'.memory.get k = value)) := by
  obtain ⟨code, data⟩ := not_or.mp fun mem => unread (List.mem_append.mpr mem)
  have twin := m.twin_poke k value
  have current : m.current? = some i := by
    cases hc : m.current? with
    | none => cases (Machine.fetch_of_none hc).symm.trans fetched
    | some j => exact congrArg some (Except.ok.inj ((Machine.fetch_of_some hc).symm.trans fetched))
  have refetched := Machine.fetch_of_some (twin.current? current code)
  refine ⟨refetched, ?_⟩
  have step : m.step = (m.execute i).map (Step.executed i) := by
    rw [Machine.step_of_running running, fetched]
    rfl
  have step' : (m.poke k value).step = ((m.poke k value).execute i).map (Step.executed i) := by
    rw [Machine.step_of_running (m := m.poke k value) running, refetched]
    rfl
  have executed := twin.execute data
  rw [step, step']
  generalize done : m.execute i = x at executed ⊢
  generalize done' : (m.poke k value).execute i = y at executed ⊢
  cases executed with
  | error same => exact .inl ⟨_, rfl, congrArg Except.error same.symm⟩
  | @ok n n' ends =>
    obtain @⟨image, memory⟩ := ends
    refine .inr ⟨n, _, rfl, rfl, rfl, memory.others, ?_⟩
    by_cases inside : .cell k.val ∈ m.footprint i
    · exact memory.cell.imp_left fun same => ⟨inside, same⟩
    · have kept : n.memory[k.val]? = m.memory[k.val]? := Machine.changes_execute done (.cell k.val) inside
      have kept' : image[k.val]? = (m.poke k value).memory[k.val]? :=
        Machine.changes_execute done' (.cell k.val) inside
      rw [Image.get_eq, Image.get_eq, Image.get_eq]
      exact .inr ⟨by simpa using kept, by simpa [Machine.poke] using kept'⟩

set_option maxRecDepth 4000 in
/-- In a memory full of `push psw`, another byte in the topmost cell is lost to the push. -/
theorem Machine.step_reads_only_push :
    (Machine.ofImage (Vector.replicate windowSize 0xF5)).fetch = .ok (.push .psw) ∧
      ∃ n n', (Machine.ofImage (Vector.replicate windowSize 0xF5)).step = .ok (.executed (.push .psw) n) ∧
        ((Machine.ofImage (Vector.replicate windowSize 0xF5)).poke 943 0x12).step = .ok (.executed (.push .psw) n') ∧
        n'.memory.get 943 = n.memory.get 943 := by
  have fetched : (Machine.ofImage (Vector.replicate windowSize 0xF5)).fetch = .ok (.push .psw) := rfl
  have pushed : (Machine.ofImage (Vector.replicate windowSize 0xF5)).step = .ok (.executed (.push .psw)
      { memory := ((Vector.replicate windowSize 0xF5).set 943 0x00).set 942 0x02, pc := 1, sp := 942 }) := rfl
  obtain ⟨-, ⟨fault, fails, -⟩ | ⟨n, n', step, step', -, -, cell⟩⟩ :=
    Machine.step_reads_only rfl fetched (k := 943) (by decide) 0x12
  · cases fails.symm.trans pushed
  · refine ⟨fetched, n, n', step, step', ?_⟩
    rcases cell with ⟨-, written⟩ | ⟨kept, -⟩
    · exact written
    · cases step.symm.trans pushed
      exact absurd kept (by decide)

end I8080
