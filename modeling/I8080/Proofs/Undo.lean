import I8080.Proofs.Carry
import I8080.Proofs.Footprint

namespace I8080

/-- Pairs of instructions of which the second puts back what the first has done. -/
inductive Instr.UndoneBy : Instr → Instr → Prop
  | xchg : UndoneBy .xchg .xchg
  | xthl : UndoneBy .xthl .xthl
  | cma : UndoneBy .cma .cma
  | cmc : UndoneBy .cmc .cmc
  | ral : UndoneBy .ral .rar
  | rar : UndoneBy .rar .ral
  | inx {pair : RegPair} (counts : pair ≠ .psw) : UndoneBy (.inx pair) (.dcx pair)
  | dcx {pair : RegPair} (counts : pair ≠ .psw) : UndoneBy (.dcx pair) (.inx pair)

section Rotation

theorem Bool.toNat_toUInt8 (bit : Bool) : bit.toUInt8.toNat = bit.toNat := by
  cases bit <;> rfl

theorem Bool.eq_of_toNat_eq {bit other : Bool} (h : bit.toNat = other.toNat) : bit = other := by
  revert bit other
  decide

theorem toNat_shiftLeft (b : UInt8) (bit : Bool) : (shiftLeft b bit).toNat = (2 * b.toNat + bit.toNat) % 256 := by
  simp [shiftLeft, Bool.toNat_toUInt8]

theorem toNat_shiftRight (bit : Bool) (b : UInt8) : (shiftRight bit b).toNat = 128 * bit.toNat + b.toNat / 2 := by
  have bound := b.toNat_lt
  have one := bit.toNat_le
  simp only [shiftRight, UInt8.toNat_add, UInt8.toNat_mul, UInt8.toNat_div, Bool.toNat_toUInt8, UInt8.reduceToNat]
  omega

theorem toNat_highBit (b : UInt8) : (highBit b).toNat = b.toNat / 128 := by
  have bound := b.toNat_lt
  have number : (0x80 ≤ b) = (128 ≤ b.toNat) := rfl
  simp only [highBit, number, Bool.toNat_decide]
  split <;> omega

theorem toNat_lowBit (b : UInt8) : (lowBit b).toNat = b.toNat % 2 := by
  have number : (b % 2 = 1) = (b.toNat % 2 = 1) := by
    rw [← UInt8.toNat_inj]
    rfl
  simp only [lowBit, beq_eq_decide, number, Bool.toNat_decide]
  split <;> omega

theorem shiftRight_shiftLeft (b : UInt8) (bit : Bool) : shiftRight (highBit b) (shiftLeft b bit) = b := by
  have bound := b.toNat_lt
  have one := bit.toNat_le
  apply UInt8.toNat_inj.mp
  rw [toNat_shiftRight, toNat_highBit, toNat_shiftLeft]
  omega

theorem lowBit_shiftLeft (b : UInt8) (bit : Bool) : lowBit (shiftLeft b bit) = bit := by
  have one := bit.toNat_le
  apply Bool.eq_of_toNat_eq
  rw [toNat_lowBit, toNat_shiftLeft]
  omega

theorem shiftLeft_shiftRight (bit : Bool) (b : UInt8) : shiftLeft (shiftRight bit b) (lowBit b) = b := by
  have bound := b.toNat_lt
  have one := bit.toNat_le
  apply UInt8.toNat_inj.mp
  rw [toNat_shiftLeft, toNat_lowBit, toNat_shiftRight]
  omega

theorem highBit_shiftRight (bit : Bool) (b : UInt8) : highBit (shiftRight bit b) = bit := by
  have bound := b.toNat_lt
  have one := bit.toNat_le
  apply Bool.eq_of_toNat_eq
  rw [toNat_highBit, toNat_shiftRight]
  omega

end Rotation

theorem Machine.setPair_self (m : Machine) (pair : RegPair) : m.setPair pair (m.pair pair) = .ok m := by
  cases pair with
  | sp =>
    have inside := Nat.le_of_lt_succ m.sp.isLt
    have offset : (m.pair .sp - windowBase).toNat = m.sp.val := by
      rw [Machine.pair, addressOf, UInt16.add_comm, UInt16.add_sub_cancel, toNat_ofNat_of_le_windowSize inside]
    simp only [Machine.setPair, offset, inside, dif_pos]
  | psw => simp [Machine.setPair, Machine.pair, Word.low_join, Word.high_join, Flags.ofByte_toByte]
  | _ => simp [Machine.setPair, Machine.pair, Word.low_join, Word.high_join]

theorem Machine.setPair_setPair {m n : Machine} {pair : RegPair} {value : UInt16} (h : m.setPair pair value = .ok n)
    (other : UInt16) : n.setPair pair other = m.setPair pair other := by
  cases pair with
  | sp =>
    unfold Machine.setPair at h
    dsimp only at h
    split at h
    next => cases h; rfl
    next => cases h
  | _ => cases h; rfl

theorem Machine.setPair_goto {m n : Machine} {pair : RegPair} {value : UInt16} (h : m.setPair pair value = .ok n)
    (target : Nat) : (m.goto target).setPair pair value = .ok (n.goto target) := by
  cases pair with
  | sp =>
    unfold Machine.setPair at h ⊢
    dsimp only at h ⊢
    split at h
    next inside => cases h; rw [dif_pos inside]; rfl
    next => cases h
  | _ => cases h; rfl

theorem Machine.pair_of_setPair {m n : Machine} {pair : RegPair} {value : UInt16} (h : m.setPair pair value = .ok n)
    (whole : pair ≠ .psw) : n.pair pair = value := by
  cases pair with
  | sp => exact Machine.pair_sp_of_setPair h
  | psw => exact absurd rfl whole
  | _ => cases h; exact Word.join_low_high value

theorem Machine.perform_xthl {m : Machine} (first : m.sp.val < windowSize) (word : m.sp.val + 1 < windowSize) :
    m.perform .xthl = .ok { m with
      memory := (m.memory.set (m.sp.val + 1) m.registers.h word).set m.sp.val m.registers.l first
      registers := { m.registers with h := m.memory[m.sp.val + 1], l := m.memory[m.sp.val] } } := by
  have push := @Machine.push_of_room { m with sp := ⟨m.sp.val + 2, Nat.lt_succ_of_le word⟩ } m.sp.val rfl (m.pair .hl)
  have low : Word.low (m.pair .hl) = m.registers.l := Word.low_join _ _
  have high : Word.high (m.pair .hl) = m.registers.h := Word.high_join _ _
  simp only [Machine.perform, Machine.pop_of_word word, bind, Except.bind, push, Machine.setPair, Word.low_join,
    Word.high_join, low, high]

theorem Machine.word_of_xthl {m n : Machine} (h : m.perform .xthl = .ok n) : m.sp.val + 2 ≤ windowSize := by
  obtain ⟨⟨top, popped⟩, pop, -⟩ := exists_of_bind_eq_ok h
  have bound := popped.sp.isLt
  have raised := (Machine.pop_eq_ok pop).2.2
  omega

theorem Image.exchange_back (image : Image) {k : Nat} (word : k + 2 ≤ windowSize) (high low : UInt8) :
    let changed := (image.set (k + 1) high word).set k low (Nat.lt_of_succ_lt word)
    changed[k + 1] = high ∧ changed[k] = low ∧
      (changed.set (k + 1) image[k + 1] word).set k image[k] (Nat.lt_of_succ_lt word) = image := by
  refine ⟨by simp, by simp, ?_⟩
  apply Vector.ext
  intro offset inside
  by_cases first : k = offset
  · subst first
    simp
  · by_cases second : k + 1 = offset
    · subst second
      simp
    · simp [Vector.getElem_set_ne, first, second]

/-- The work of the second instruction takes that of the first back. -/
theorem Machine.perform_undo {m n : Machine} {i j : Instr} (undoes : i.UndoneBy j) (h : m.perform i = .ok n)
    (target : Nat) : (n.goto target).perform j = .ok (m.goto target) := by
  have counted {pair : RegPair} {value : UInt16} (whole : pair ≠ .psw) (set : m.setPair pair value = .ok n) :
      (n.goto target).pair pair = value ∧ (n.goto target).setPair pair (m.pair pair) = .ok (m.goto target) := by
    refine ⟨Machine.pair_of_setPair (Machine.setPair_goto set target) whole, ?_⟩
    exact Machine.setPair_goto ((Machine.setPair_setPair set _).trans (m.setPair_self pair)) target
  cases undoes with
  | xchg =>
    cases h
    simp only [Machine.perform, Machine.setPair, Machine.pair, Machine.goto, Word.low_join, Word.high_join, bind,
      Except.bind]
  | xthl =>
    have word := Machine.word_of_xthl h
    have made := Except.ok.inj ((Machine.perform_xthl (Nat.lt_of_succ_lt word) word).symm.trans h)
    have again : (n.goto target).sp.val + 2 ≤ windowSize := made ▸ word
    obtain ⟨high, low, back⟩ := m.memory.exchange_back word m.registers.h m.registers.l
    rw [Machine.perform_xthl (Nat.lt_of_succ_lt again) again]
    subst made
    simp only [Machine.goto, high, low, back]
  | cma =>
    cases h
    simp [Machine.perform, Machine.goto, Machine.setRegister, Registers.set]
  | cmc =>
    cases h
    simp [Machine.perform, Machine.goto]
  | ral =>
    cases h
    simp [Machine.perform, Machine.goto, Machine.rotate, Machine.setRegister, Registers.set, shiftRight_shiftLeft,
      lowBit_shiftLeft]
  | rar =>
    cases h
    simp [Machine.perform, Machine.goto, Machine.rotate, Machine.setRegister, Registers.set, shiftLeft_shiftRight,
      highBit_shiftRight]
  | @inx pair whole =>
    obtain ⟨value, back⟩ := counted whole h
    change (n.goto target).setPair pair ((n.goto target).pair pair - 1) = _
    rw [value, UInt16.add_sub_cancel, back]
  | @dcx pair whole =>
    obtain ⟨value, back⟩ := counted whole h
    change (n.goto target).setPair pair ((n.goto target).pair pair + 1) = _
    rw [value, UInt16.sub_add_cancel, back]

/-- An instruction of one byte that goes on to the next. -/
structure Instr.Plain (i : Instr) : Prop where
  goes (m : Machine) (next : Offset) : m.transfer next i = .ok (m.goto next)
  size : i.size = 1

theorem Instr.UndoneBy.plain {i j : Instr} (h : i.UndoneBy j) : i.Plain ∧ j.Plain := by
  cases h <;> exact ⟨⟨fun _ _ => rfl, rfl⟩, ⟨fun _ _ => rfl, rfl⟩⟩

theorem Instr.Plain.execute {i : Instr} (plain : i.Plain) {m n : Machine} (h : m.perform i = .ok n) :
    m.execute i = .ok (n.goto (m.pc.val + 1)) := by
  have next : n.goto (m.past i) = n.goto (m.pc.val + 1) := by
    rw [Machine.past, plain.size, Machine.goto, Offset.wrap_val]
    rfl
  rw [Machine.execute, h, ← next]
  exact plain.goes n _

theorem Offset.wrap_wrap_add (n k : Nat) : Offset.wrap ((Offset.wrap n).val + k) = Offset.wrap (n + k) :=
  Fin.ext (Nat.mod_add_mod n windowSize k)

/-- Two instructions one after the other, where the second takes up the work of the first. -/
theorem Machine.execute_both {m n k : Machine} {i j : Instr} (first : i.Plain) (second : j.Plain)
    (h : m.execute i = .ok n)
    (work : ∀ half, m.perform i = .ok half → (half.goto (m.pc.val + 1)).perform j = .ok (k.goto (m.pc.val + 1))) :
    n.execute j = .ok { k with pc := Offset.wrap (m.pc.val + 2) } := by
  obtain ⟨half, perform, -⟩ := exists_of_bind_eq_ok h
  cases (first.execute perform).symm.trans h
  rw [second.execute (work half perform)]
  exact congrArg (fun pc => Except.ok { k with pc }) (Offset.wrap_wrap_add (m.pc.val + 1) 1)

theorem Machine.execute_undo {m n : Machine} {i j : Instr} (undoes : i.UndoneBy j) (h : m.execute i = .ok n) :
    n.execute j = .ok { m with pc := Offset.wrap (m.pc.val + 2) } :=
  Machine.execute_both undoes.plain.1 undoes.plain.2 h fun _ perform => Machine.perform_undo undoes perform _

theorem Machine.pop_of_push {m n : Machine} {value : UInt16} (h : m.push value = .ok n) (target : Nat) :
    (n.goto target).pop = .ok (value, Machine.goto { m with memory := n.memory } target) := by
  obtain ⟨k, room, made⟩ := Machine.push_eq_ok h
  have word : (n.goto target).sp.val + 2 ≤ windowSize := by
    rw [made]
    exact Machine.room_lt room
  rw [Machine.pop_of_word word]
  subst made
  have sp : (⟨k + 2, Nat.lt_succ_of_le word⟩ : Fin (windowSize + 1)) = m.sp := Fin.ext room.symm
  simp [Machine.goto, Word.join_low_high, sp]

theorem Machine.changes_memory_of_push {m n : Machine} {pair : RegPair} (h : m.execute (.push pair) = .ok n) :
    m.Changes m.below { m with memory := n.memory } := by
  have changes := Machine.changes_execute h
  intro part free
  cases part with
  | cell offset => exact changes (.cell offset) (by simpa [Machine.footprint] using free)
  | _ => rfl

/-- A pop right after a push sets its pair to the word pushed, in a machine that the push has left as it was but for the
cells that it has filled. -/
theorem Machine.execute_push_pop {m n : Machine} {pair other : RegPair} (registers : other ≠ .sp)
    (h : m.execute (.push pair) = .ok n) :
    ∃ k, Machine.setPair { m with memory := n.memory } other (m.pair pair) = .ok k ∧
      n.execute (.pop other) = .ok { k with pc := Offset.wrap (m.pc.val + 2) } ∧
      m.Changes (m.below ++ other.parts) { k with pc := Offset.wrap (m.pc.val + 2) } := by
  have push : (Instr.push pair).Plain := ⟨fun _ _ => rfl, rfl⟩
  obtain ⟨k, set⟩ := Machine.setPair_of_ne_sp { m with memory := n.memory } registers (m.pair pair)
  have changes := (Machine.changes_memory_of_push h).trans (Machine.changes_setPair set)
  refine ⟨k, set, Machine.execute_both push ⟨fun _ _ => rfl, rfl⟩ h fun half perform => ?_, changes.goto _⟩
  have memory : half.memory = n.memory := by
    rw [← Except.ok.inj ((push.execute perform).symm.trans h)]
    rfl
  have popped := Machine.pop_of_push perform (m.pc.val + 1)
  rw [memory] at popped
  rw [Machine.perform, popped]
  exact Machine.setPair_goto set _

theorem Machine.execute_push_pop_same {m n : Machine} {pair : RegPair} (registers : pair ≠ .sp)
    (h : m.execute (.push pair) = .ok n) :
    n.execute (.pop pair) = .ok { m with memory := n.memory, pc := Offset.wrap (m.pc.val + 2) } := by
  obtain ⟨k, set, pop, -⟩ := Machine.execute_push_pop registers h
  have same : Machine.pair { m with memory := n.memory } pair = m.pair pair := by cases pair <;> rfl
  rw [← same, Machine.setPair_self] at set
  cases set
  exact pop

/-- With `HL` zero, adding the stack pointer to it and setting the stack pointer to the sum leaves the pointer alone. -/
theorem Machine.execute_dad_sphl {m n : Machine} (zero : m.pair .hl = 0) (h : m.execute (.dad .sp) = .ok n) :
    ∃ k, n.execute .sphl = .ok k ∧ k.sp = m.sp := by
  have dad : (Instr.dad .sp).Plain := ⟨fun _ _ => rfl, rfl⟩
  obtain ⟨half, perform, -⟩ := exists_of_bind_eq_ok h
  have sum : half.pair .hl = half.pair .sp ∧ half.sp = m.sp := by
    cases perform
    refine ⟨?_, rfl⟩
    change Word.join (Word.low (m.pair .hl + m.pair .sp)) (Word.high (m.pair .hl + m.pair .sp)) = m.pair .sp
    rw [Word.join_low_high, zero, UInt16.zero_add]
  refine ⟨_, Machine.execute_both dad ⟨fun _ _ => rfl, rfl⟩ h fun _ again => ?_, sum.2⟩
  cases perform.symm.trans again
  have set := half.setPair_self .sp
  rw [← sum.1] at set
  exact Machine.setPair_goto set _

/-- Instructions that undo one another leave the machine as it was, but for its program counter. What a push puts on the
stack, the pop after it takes off: the two cells below the top of the stack are all that the pair leaves behind besides
the popped registers. -/
theorem Machine.execute_inverses {m n : Machine} :
    (∀ i j : Instr, i.UndoneBy j → m.execute i = .ok n →
        n.execute j = .ok { m with pc := Offset.wrap (m.pc.val + 2) }) ∧
      (∀ pair ∈ [RegPair.bc, .de, .hl, .psw], m.execute (.push pair) = .ok n →
        n.execute (.pop pair) = .ok { m with memory := n.memory, pc := Offset.wrap (m.pc.val + 2) } ∧
          ∀ offset, Part.cell offset ∉ m.below → n.memory[offset]? = m.memory[offset]?) ∧
      (∀ pair ∈ [RegPair.bc, .de, .hl], ∀ other ∈ [RegPair.bc, .de, .hl], m.execute (.push pair) = .ok n →
        ∃ k, n.execute (.pop other) = .ok k ∧ k.pair other = m.pair pair ∧ m.Changes (m.below ++ other.parts) k) ∧
      (∀ pair ∈ [RegPair.bc, .de, .hl], m.execute (.push pair) = .ok n →
        let low := (Word.low (m.pair pair)).toNat
        ∃ k, n.execute (.pop .psw) = .ok k ∧ k.registers.a = Word.high (m.pair pair) ∧
          k.flags = ⟨low.testBit 7, low.testBit 6, low.testBit 4, low.testBit 2, low.testBit 0⟩ ∧
          m.Changes (m.below ++ RegPair.psw.parts) k) ∧
      (m.pair .hl = 0 → m.execute (.dad .sp) = .ok n → ∃ k, n.execute .sphl = .ok k ∧ k.sp = m.sp) := by
  refine ⟨fun i j => Machine.execute_undo, ?_, ?_, ?_, Machine.execute_dad_sphl⟩
  · intro pair mem h
    have registers : pair ≠ .sp := by
      rintro rfl
      exact absurd mem (by decide)
    exact ⟨Machine.execute_push_pop_same registers h, fun offset => Machine.changes_memory_of_push h (.cell offset)⟩
  · intro pair _ other mem h
    have plain : other ≠ .sp ∧ other ≠ .psw := by
      constructor <;> rintro rfl <;> exact absurd mem (by decide)
    obtain ⟨k, set, pop, changes⟩ := Machine.execute_push_pop plain.1 h
    refine ⟨_, pop, ?_, changes⟩
    rw [← Machine.pair_of_setPair set plain.2]
    cases other <;> rfl
  · intro pair _ h low
    obtain ⟨k, set, pop, changes⟩ := Machine.execute_push_pop (show RegPair.psw ≠ .sp by decide) h
    cases set
    exact ⟨_, pop, rfl, rfl, changes⟩

set_option maxRecDepth 4000 in
/-- `HL` and the only word on the stack change places and change back, from the last cell of the window on. A pair that is
pushed over the word sets the flags by its low byte. -/
theorem Machine.execute_inverses_word :
    let m : Machine := { registers := { h := 0x12, l := 0x81 }, sp := ⟨942, by decide⟩, pc := ⟨943, by decide⟩ }
    (∃ n, m.execute .xthl = .ok n ∧ n.memory[943] = 0x12 ∧ n.registers.h = 0 ∧
        n.execute .xthl = .ok { m with pc := ⟨1, by decide⟩ }) ∧
      ∃ n k, m.execute (.push .hl) = .ok n ∧ n.execute (.pop .psw) = .ok k ∧ k.registers.a = 0x12 ∧
        k.flags = { sign := true, carry := true } := by
  intro m
  constructor
  · have word : m.sp.val + 2 ≤ windowSize := by decide
    have execute := Instr.UndoneBy.xthl.plain.1.execute (Machine.perform_xthl (Nat.lt_of_succ_lt word) word)
    have back := Machine.execute_inverses.1 _ _ .xthl execute
    have wrapped : Offset.wrap (943 + 2) = ⟨1, by decide⟩ := by decide
    rw [show m.pc.val = 943 from rfl, wrapped] at back
    exact ⟨_, execute, by simp [Machine.goto, m], by simp [Machine.goto, m, Image.blank], back⟩
  · obtain ⟨n, execute⟩ : ∃ n, m.execute (.push .hl) = .ok n := ⟨_, rfl⟩
    obtain ⟨k, pop, a, flags, -⟩ := Machine.execute_inverses.2.2.2.1 .hl (by decide) execute
    exact ⟨n, k, execute, pop, a.trans (by decide), flags.trans (by decide)⟩

end I8080
