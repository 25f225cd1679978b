import I8080.Machine.Execute
import Mathlib.Algebra.Ring.Int.Defs
import Mathlib.Data.Nat.Digits.Defs
import Mathlib.Tactic.LinearCombination

namespace I8080

/-- An instruction does an operation between the accumulator and this byte, which it holds itself or takes from a
location. -/
inductive Machine.Operates (m : Machine) (op : AluOp) (value : UInt8) : Instr → Prop
  | immediate : Machine.Operates m op value (.aluImmediate op value)
  | located {src : Loc} (holds : m.load src = .ok value) : Machine.Operates m op value (.alu op src)

theorem Machine.Operates.execute {m : Machine} {op : AluOp} {value : UInt8} {i : Instr} (h : m.Operates op value i) :
    m.execute i = .ok ((m.accumulate op value).goto (m.past i)) := by
  cases h with
  | immediate => rfl
  | located holds =>
    simp only [Machine.execute, Machine.perform, holds]
    rfl

/-- One machine is the other after an operation between its accumulator and a byte. -/
def AluOp.Works (op : AluOp) (y : UInt8) (m n : Machine) : Prop :=
  ∃ i, m.Operates op y i ∧ m.execute i = .ok n

theorem AluOp.Works.result {op : AluOp} {y : UInt8} {m n : Machine} (h : op.Works y m n) :
    (n.registers.a, n.flags) = op.apply m.flags.carry m.registers.a y := by
  obtain ⟨i, operates, executed⟩ := h
  cases operates.execute.symm.trans executed
  rfl

theorem AluOp.works_immediate (op : AluOp) (y : UInt8) (m : Machine) :
    op.Works y m ((m.accumulate op y).goto (m.past (.aluImmediate op y))) :=
  ⟨_, .immediate, Machine.Operates.execute .immediate⟩

/-- Work on two rows of bytes, from the lowest byte up. For each place the accumulator is loaded from the first row,
the work is done with the byte of the second, and the result is in the accumulator. In between anything may happen
that leaves the carry alone. -/
inductive Machine.Chain (work : UInt8 → Machine → Machine → Prop) :
    Machine → List UInt8 → List UInt8 → List UInt8 → Machine → Prop
  | nil (m : Machine) : Machine.Chain work m [] [] [] m
  | cons {m next last : Machine} {x y z : UInt8} {xs ys zs : List UInt8} (loaded : Machine)
      (kept : loaded.flags.carry = m.flags.carry) (loads : loaded.registers.a = x) (worked : work y loaded next)
      (leaves : next.registers.a = z) (rest : Machine.Chain work next xs ys zs last) :
      Machine.Chain work m (x :: xs) (y :: ys) (z :: zs) last

theorem Machine.Chain.load {work : UInt8 → Machine → Machine → Prop} {m next last : Machine} {x y z : UInt8}
    {xs ys zs : List UInt8} (worked : work y (m.setRegister .a x) next) (leaves : next.registers.a = z)
    (rest : Machine.Chain work next xs ys zs last) : Machine.Chain work m (x :: xs) (y :: ys) (z :: zs) last :=
  .cons (m.setRegister .a x) rfl rfl worked leaves rest

theorem Machine.exists_chain {work : UInt8 → Machine → Machine → Prop} (works : ∀ y m, ∃ n, work y m n) (m : Machine)
    {xs ys : List UInt8} (same : xs.length = ys.length) : ∃ zs last, Machine.Chain work m xs ys zs last := by
  induction xs generalizing m ys with
  | nil =>
    cases List.length_eq_zero_iff.mp same.symm
    exact ⟨[], m, .nil m⟩
  | cons x xs ih =>
    obtain ⟨y, ys, rfl⟩ := List.exists_cons_of_length_eq_add_one same.symm
    obtain ⟨next, worked⟩ := works y (m.setRegister .a x)
    obtain ⟨zs, last, rest⟩ := ih next (Nat.succ.inj same)
    exact ⟨_, last, .load worked rfl rest⟩

def littleEndian (bytes : List UInt8) : Nat :=
  Nat.ofDigits 256 (bytes.map UInt8.toNat)

theorem littleEndian_cons (b : UInt8) (bytes : List UInt8) :
    littleEndian (b :: bytes) = b.toNat + 256 * littleEndian bytes := by
  simp [littleEndian, Nat.ofDigits_cons]

theorem Flags.carry_ofResult (raw : UInt16) : (Flags.ofResult raw).carry = decide (255 < raw.toNat) := by
  simp [Flags.ofResult, UInt16.lt_iff_toNat_lt]

theorem Bool.toNat_toUInt16 (b : Bool) : b.toUInt16.toNat = b.toNat := by
  cases b <;> rfl

theorem Bool.toNat_decide (p : Prop) [Decidable p] : (decide p).toNat = if p then 1 else 0 := by
  by_cases h : p <;> simp [h]

theorem AluOp.adc_apply (carry : Bool) (a value : UInt8) :
    ∃ raw : UInt16, raw.toNat = a.toNat + value.toNat + carry.toNat ∧
      AluOp.adc.apply carry a value = (raw.toUInt8, Flags.ofResult raw) := by
  have ha := a.toNat_lt
  have hv := value.toNat_lt
  have hc := carry.toNat_lt
  refine ⟨a.toUInt16 + value.toUInt16 + carry.toUInt16, ?_, rfl⟩
  simp only [UInt16.toNat_add, UInt8.toNat_toUInt16, Bool.toNat_toUInt16]
  omega

theorem AluOp.sbb_apply (carry : Bool) (a value : UInt8) :
    ∃ raw : UInt16, raw.toNat = (a.toNat + 65536 - value.toNat - carry.toNat) % 65536 ∧
      AluOp.sbb.apply carry a value = (raw.toUInt8, Flags.ofResult raw) := by
  have ha := a.toNat_lt
  have hv := value.toNat_lt
  have hc := carry.toNat_lt
  refine ⟨a.toUInt16 - value.toUInt16 - carry.toUInt16, ?_, rfl⟩
  simp only [UInt16.toNat_sub, UInt8.toNat_toUInt16, Bool.toNat_toUInt16]
  omega

theorem AluOp.adc_exact (carry : Bool) (a value : UInt8) :
    let (z, flags) := AluOp.adc.apply carry a value
    z.toNat + 256 * flags.carry.toNat = a.toNat + value.toNat + carry.toNat := by
  have ha := a.toNat_lt
  have hv := value.toNat_lt
  have hc := carry.toNat_lt
  obtain ⟨raw, sum, result⟩ := AluOp.adc_apply carry a value
  rw [result]
  simp only [UInt16.toNat_toUInt8, Flags.carry_ofResult, Bool.toNat_decide]
  split_ifs <;> omega

theorem AluOp.sbb_exact (carry : Bool) (a value : UInt8) :
    let (z, flags) := AluOp.sbb.apply carry a value
    z.toNat + value.toNat + carry.toNat = a.toNat + 256 * flags.carry.toNat := by
  have ha := a.toNat_lt
  have hv := value.toNat_lt
  have hc := carry.toNat_lt
  obtain ⟨raw, difference, result⟩ := AluOp.sbb_apply carry a value
  rw [result]
  -- A difference below zero wraps to one far above a byte.
  simp only [UInt16.toNat_toUInt8, Flags.carry_ofResult, Bool.toNat_decide]
  split_ifs <;> omega

theorem AluOp.add_eq_adc (carry : Bool) (a value : UInt8) :
    AluOp.add.apply carry a value = AluOp.adc.apply false a value := by
  simp [AluOp.apply, Bool.toUInt16]

theorem AluOp.sub_eq_sbb (carry : Bool) (a value : UInt8) :
    AluOp.sub.apply carry a value = AluOp.sbb.apply false a value := by
  simp [AluOp.apply, Bool.toUInt16]

/-- Bytes that each come out right, up to a carry or a borrow for the next, come out right together. -/
theorem Machine.Chain.sum_eq {work : UInt8 → Machine → Machine → Prop} {sign : ℤ}
    (exact : ∀ y m n, work y m n → (n.registers.a.toNat : ℤ) + sign * (256 * n.flags.carry.toNat) =
      m.registers.a.toNat + sign * (y.toNat + m.flags.carry.toNat))
    {m last : Machine} {xs ys zs : List UInt8} (h : Machine.Chain work m xs ys zs last) :
    (littleEndian zs : ℤ) + sign * (256 ^ xs.length * last.flags.carry.toNat) =
      littleEndian xs + sign * (littleEndian ys + m.flags.carry.toNat) := by
  induction h with
  | nil => simp [littleEndian]
  | @cons m next last x y z xs ys zs loaded kept loads worked leaves _ ih =>
    have first := exact y loaded next worked
    rw [kept, loads, leaves] at first
    simp only [littleEndian_cons, List.length_cons, Nat.cast_add, Nat.cast_mul, Nat.cast_ofNat, pow_succ]
    linear_combination first + 256 * ih

theorem AluOp.Works.adc_eq {y : UInt8} {m n : Machine} (h : AluOp.adc.Works y m n) :
    (n.registers.a.toNat : ℤ) + 1 * (256 * n.flags.carry.toNat) =
      m.registers.a.toNat + 1 * (y.toNat + m.flags.carry.toNat) := by
  have exact := AluOp.adc_exact m.flags.carry m.registers.a y
  rw [← h.result] at exact
  dsimp only at exact
  omega

theorem AluOp.Works.sbb_eq {y : UInt8} {m n : Machine} (h : AluOp.sbb.Works y m n) :
    (n.registers.a.toNat : ℤ) + -1 * (256 * n.flags.carry.toNat) =
      m.registers.a.toNat + -1 * (y.toNat + m.flags.carry.toNat) := by
  have exact := AluOp.sbb_exact m.flags.carry m.registers.a y
  rw [← h.result] at exact
  dsimp only at exact
  omega

theorem Machine.Chain.adc_sum {m last : Machine} {xs ys zs : List UInt8}
    (h : Machine.Chain AluOp.adc.Works m xs ys zs last) :
    littleEndian zs + 256 ^ xs.length * last.flags.carry.toNat =
      littleEndian xs + littleEndian ys + m.flags.carry.toNat := by
  have sum := h.sum_eq fun _ _ _ => AluOp.Works.adc_eq
  rw [one_mul, one_mul, ← add_assoc] at sum
  exact_mod_cast sum

theorem Machine.Chain.sbb_difference {m last : Machine} {xs ys zs : List UInt8}
    (h : Machine.Chain AluOp.sbb.Works m xs ys zs last) :
    (littleEndian zs : ℤ) - 256 ^ xs.length * last.flags.carry.toNat =
      littleEndian xs - littleEndian ys - m.flags.carry.toNat := by
  have sum := h.sum_eq fun _ _ _ => AluOp.Works.sbb_eq
  linear_combination sum

/-- The machine with its carry cleared. -/
def Machine.clearCarry (m : Machine) : Machine :=
  { m with flags := { m.flags with carry := false } }

theorem Machine.load_clearCarry (m : Machine) (loc : Loc) : m.clearCarry.load loc = m.load loc := by
  cases loc <;> rfl

/-- What an operation that ignores the carry does is what its like with a carry does when the carry is clear. -/
theorem AluOp.Works.clearCarry {op other : AluOp} {y : UInt8} {m n : Machine} (h : op.Works y m n)
    (same : ∀ carry a value, op.apply carry a value = other.apply false a value) : other.Works y m.clearCarry n := by
  have accumulate : m.clearCarry.accumulate other y = m.accumulate op y := by
    simp only [Machine.accumulate, same]
    rfl
  obtain ⟨i, operates, executed⟩ := h
  cases operates.execute.symm.trans executed
  cases operates with
  | immediate =>
    refine ⟨.aluImmediate other y, .immediate, ?_⟩
    rw [Machine.Operates.execute .immediate, accumulate]
    rfl
  | @located src holds =>
    have operates : m.clearCarry.Operates other y (.alu other src) := .located ((m.load_clearCarry src).trans holds)
    refine ⟨.alu other src, operates, ?_⟩
    rw [operates.execute, accumulate]
    rfl

theorem Machine.compare_eq {m : Machine} {value : UInt8} {i j : Instr} (compares : m.Operates .cmp value i)
    (subtracts : m.Operates .sub value j) :
    ∃ n k, m.execute i = .ok n ∧ m.execute j = .ok k ∧ n.registers = m.registers ∧ n.flags = k.flags :=
  ⟨_, _, compares.execute, subtracts.execute, rfl, rfl⟩

/-- Addition with the carry and subtraction with the borrow, byte by byte, add and subtract numbers of any length. A
first byte without the carry does as with a clear one, and a comparison sets the flags of a subtraction. -/
theorem Machine.carry_chain_exact (m : Machine) :
    (∀ op value i, m.Operates op value i → ∃ n, m.execute i = .ok n) ∧
      (∀ (op : AluOp) (xs ys : List UInt8), xs.length = ys.length → ∃ zs last, m.Chain op.Works xs ys zs last) ∧
      (∀ xs ys zs last, m.Chain AluOp.adc.Works xs ys zs last →
        littleEndian zs + 256 ^ xs.length * last.flags.carry.toNat =
          littleEndian xs + littleEndian ys + m.flags.carry.toNat) ∧
      (∀ xs ys zs last, m.Chain AluOp.sbb.Works xs ys zs last →
        (littleEndian zs : ℤ) - 256 ^ xs.length * last.flags.carry.toNat =
          littleEndian xs - littleEndian ys - m.flags.carry.toNat) ∧
      (∀ y n xs ys zs last, AluOp.add.Works y m n → n.Chain AluOp.adc.Works xs ys zs last →
        littleEndian (n.registers.a :: zs) + 256 ^ (xs.length + 1) * last.flags.carry.toNat =
          littleEndian (m.registers.a :: xs) + littleEndian (y :: ys)) ∧
      (∀ y n xs ys zs last, AluOp.sub.Works y m n → n.Chain AluOp.sbb.Works xs ys zs last →
        (littleEndian (n.registers.a :: zs) : ℤ) - 256 ^ (xs.length + 1) * last.flags.carry.toNat =
          littleEndian (m.registers.a :: xs) - littleEndian (y :: ys)) ∧
      ∀ value i j, m.Operates .cmp value i → m.Operates .sub value j →
        ∃ n k, m.execute i = .ok n ∧ m.execute j = .ok k ∧ n.registers = m.registers ∧ n.flags = k.flags := by
  refine ⟨fun _ _ _ h => ⟨_, h.execute⟩,
    fun op _ _ same => m.exists_chain (fun y m => ⟨_, op.works_immediate y m⟩) same,
    fun _ _ _ _ h => h.adc_sum, fun _ _ _ _ h => h.sbb_difference, ?_, ?_,
    fun _ _ _ compares subtracts => Machine.compare_eq compares subtracts⟩
  · intro y n xs ys zs last first rest
    have chain : m.clearCarry.Chain AluOp.adc.Works (m.registers.a :: xs) (y :: ys) (n.registers.a :: zs) last :=
      .cons m.clearCarry rfl rfl (first.clearCarry AluOp.add_eq_adc) rfl rest
    exact chain.adc_sum
  · intro y n xs ys zs last first rest
    have chain : m.clearCarry.Chain AluOp.sbb.Works (m.registers.a :: xs) (y :: ys) (n.registers.a :: zs) last :=
      .cons m.clearCarry rfl rfl (first.clearCarry AluOp.sub_eq_sbb) rfl rest
    exact chain.sbb_difference.trans (sub_zero _)

/-- A carry and a borrow between two bytes, of which the second starts without one and takes its operand from a
register. -/
theorem Machine.carry_chain_exact_twoBytes :
    let carrying : Machine := { flags := { carry := true } }
    let m : Machine := { registers := { a := 0x00, b := 0x01 } }
    (∃ last, carrying.Chain AluOp.adc.Works [0xFE, 0x12] [0x01, 0x00] [0x00, 0x13] last ∧
        littleEndian [0x00, 0x13] + 256 ^ 2 * last.flags.carry.toNat =
          littleEndian [0xFE, 0x12] + littleEndian [0x01, 0x00] + carrying.flags.carry.toNat) ∧
      ∃ n last, m.execute (.alu .sub (.reg .b)) = .ok n ∧ n.Chain AluOp.sbb.Works [0x13] [0x00] [0x12] last ∧
        (littleEndian [n.registers.a, 0x12] : ℤ) - 256 ^ 2 * last.flags.carry.toNat =
          littleEndian [0x00, 0x13] - littleEndian [0x01, 0x00] := by
  intro carrying m
  obtain ⟨-, -, add, -⟩ := carrying.carry_chain_exact
  obtain ⟨-, -, -, -, -, subtract, -⟩ := m.carry_chain_exact
  have added : carrying.Chain AluOp.adc.Works [0xFE, 0x12] [0x01, 0x00] [0x00, 0x13] _ :=
    .load (AluOp.adc.works_immediate 0x01 _) (by decide)
      (.load (AluOp.adc.works_immediate 0x00 _) (by decide) (.nil _))
  have operates : m.Operates .sub 0x01 (.alu .sub (.reg .b)) := .located rfl
  let difference := (m.accumulate .sub 0x01).goto (m.past (.alu .sub (.reg .b)))
  have subtracted : difference.Chain AluOp.sbb.Works [0x13] [0x00] [0x12] _ :=
    .load (AluOp.sbb.works_immediate 0x00 _) (by decide) (.nil _)
  refine ⟨⟨_, added, ?_⟩, difference, _, operates.execute, subtracted, ?_⟩
  · exact add _ _ _ _ added
  · have total := subtract 0x01 difference _ _ _ _ ⟨_, operates, operates.execute⟩ subtracted
    exact total

end I8080
