import I8080.Proofs.Carry

namespace I8080

/-- Both hexadecimal digits of a byte are decimal digits. -/
def IsPacked (b : UInt8) : Prop :=
  b.toNat / 16 ≤ 9 ∧ b.toNat % 16 ≤ 9

instance (b : UInt8) : Decidable (IsPacked b) :=
  inferInstanceAs (Decidable (_ ∧ _))

def packedValue (b : UInt8) : Nat :=
  10 * (b.toNat / 16) + b.toNat % 16

/-- The number that a row of packed bytes holds, its lowest two digits first. -/
def packedNumber (bytes : List UInt8) : Nat :=
  Nat.ofDigits 100 (bytes.map packedValue)

theorem packedNumber_cons (b : UInt8) (bytes : List UInt8) :
    packedNumber (b :: bytes) = packedValue b + 100 * packedNumber bytes := by
  simp [packedNumber, Nat.ofDigits_cons]

theorem packedValue_lt {b : UInt8} (h : IsPacked b) : packedValue b < 100 := by
  unfold IsPacked at h
  unfold packedValue
  omega

/-- One machine is the other after an addition with the carry and a decimal adjustment. -/
def Machine.AddsDecimal (y : UInt8) (m n : Machine) : Prop :=
  ∃ sum, AluOp.adc.Works y m sum ∧ sum.execute .daa = .ok n

theorem Flags.aux_ofResult (raw : UInt16) : (Flags.ofResult raw).aux = decide (9 < raw.toNat % 256) := by
  simp [Flags.ofResult, UInt8.lt_iff_toNat_lt]

theorem decimalAdjust_carry (f : Flags) (a : UInt8) :
    (decimalAdjust f a).2.carry =
      decide (f.carry = true ∨ 9 < a.toNat / 16 ∨ 9 ≤ a.toNat / 16 ∧ 9 < a.toNat % 16) := by
  simp [decimalAdjust, UInt8.lt_iff_toNat_lt, UInt8.le_iff_toNat_le, Bool.or_assoc]

theorem toNat_decimalAdjust (f : Flags) (a : UInt8) :
    (decimalAdjust f a).1.toNat =
      (a.toNat + (if f.aux = true ∨ 9 < a.toNat % 16 then 6 else 0) +
        if (decimalAdjust f a).2.carry = true then 96 else 0) % 256 := by
  have low : (f.aux || decide (9 < a % 16)) = true ↔ f.aux = true ∨ 9 < a.toNat % 16 := by
    simp [UInt8.lt_iff_toNat_lt]
  have corrected : (decimalAdjust f a).1 = (a.toUInt16 + ((if f.aux || decide (9 < a % 16) then 0x06 else 0) +
      if (decimalAdjust f a).2.carry then 0x60 else 0)).toUInt8 := rfl
  rw [corrected]
  simp only [low]
  split_ifs <;> simp

/-- The low digits of two packed bytes come to more than nine, with the carry, just when the byte of their binary sum
does. Only the latter is what the auxiliary carry tells. -/
def AdjustsAt (carry : Bool) (x y : UInt8) : Prop :=
  9 < (x.toNat + y.toNat + carry.toNat) % 256 ↔ 9 < x.toNat % 16 + y.toNat % 16 + carry.toNat

instance (carry : Bool) (x y : UInt8) : Decidable (AdjustsAt carry x y) :=
  inferInstanceAs (Decidable (_ ↔ _))

/-- Two bytes added with the carry, then adjusted. -/
def decimalAdd (carry : Bool) (x y : UInt8) : UInt8 × Flags :=
  let (sum, flags) := AluOp.adc.apply carry x y
  decimalAdjust flags sum

theorem Machine.AddsDecimal.result {y : UInt8} {m n : Machine} (h : m.AddsDecimal y n) :
    (n.registers.a, n.flags) = decimalAdd m.flags.carry m.registers.a y := by
  obtain ⟨sum, added, adjusted⟩ := h
  rw [decimalAdd, ← added.result]
  cases adjusted
  rfl

theorem decimal_place {carry : Bool} {x y : UInt8} (packed : IsPacked x) (packed' : IsPacked y) :
    let (z, after) := decimalAdd carry x y
    after.carry = decide (100 ≤ packedValue x + packedValue y + carry.toNat) ∧
      (IsPacked z ∧ packedValue z + 100 * after.carry.toNat = packedValue x + packedValue y + carry.toNat ↔
        AdjustsAt carry x y) := by
  have hc := carry.toNat_lt
  obtain ⟨raw, sum, result⟩ := AluOp.adc_apply carry x y
  rw [decimalAdd, result]
  dsimp only
  have carried : (decimalAdjust (Flags.ofResult raw) raw.toUInt8).2.carry =
      decide (100 ≤ packedValue x + packedValue y + carry.toNat) := by
    rw [decimalAdjust_carry, Flags.carry_ofResult, UInt16.toNat_toUInt8, decide_eq_decide, decide_eq_true_iff, sum]
    unfold IsPacked at packed packed'
    unfold packedValue
    omega
  refine ⟨carried, ?_⟩
  have value := toNat_decimalAdjust (Flags.ofResult raw) raw.toUInt8
  simp only [carried, Flags.aux_ofResult, UInt16.toNat_toUInt8, decide_eq_true_iff, sum] at value
  rw [carried]
  generalize (decimalAdjust (Flags.ofResult raw) raw.toUInt8).1 = z at value ⊢
  unfold AdjustsAt
  unfold IsPacked packedValue at *
  -- Without a decimal carry the binary sum fits a byte, so the correction is of the low digit alone.
  by_cases carries : 100 ≤ 10 * (x.toNat / 16) + x.toNat % 16 + (10 * (y.toNat / 16) + y.toNat % 16) + carry.toNat
  · rw [if_pos carries] at value
    rw [decide_eq_true carries, Bool.toNat_true]
    split_ifs at value <;> omega
  · rw [if_neg carries] at value
    rw [decide_eq_false carries, Bool.toNat_false]
    have fits : x.toNat + y.toNat + carry.toNat < 256 := by omega
    rw [Nat.mod_eq_of_lt fits] at value ⊢
    split_ifs at value <;> omega

theorem Machine.exists_addsDecimal (y : UInt8) (m : Machine) : ∃ n, m.AddsDecimal y n :=
  ⟨_, _, AluOp.adc.works_immediate y m, rfl⟩

/-- Every place of two packed numbers adjusts, with the decimal carry that comes into it. -/
def Adjusts : Bool → List UInt8 → List UInt8 → Prop
  | carry, x :: xs, y :: ys =>
    AdjustsAt carry x y ∧ Adjusts (decide (100 ≤ packedValue x + packedValue y + carry.toNat)) xs ys
  | _, _, _ => True

instance Adjusts.instDecidable : (carry : Bool) → (xs ys : List UInt8) → Decidable (Adjusts carry xs ys)
  | _, [], _ | _, _ :: _, [] => inferInstanceAs (Decidable True)
  | carry, x :: xs, y :: ys =>
    have := Adjusts.instDecidable (decide (100 ≤ packedValue x + packedValue y + carry.toNat)) xs ys
    inferInstanceAs (Decidable (_ ∧ _))

theorem carry_of_rows {first rest base : Nat} (lt : first < 200) :
    base * 100 ≤ first + 100 * rest ↔ base ≤ rest + (decide (100 ≤ first)).toNat := by
  rw [Bool.toNat_decide]
  split_ifs <;> omega

/-- Two digits and what follows them come out right together just when each does, since the digits are below 100. -/
theorem sum_of_rows {z first rest total : Nat} (digits : z < 100) (lt : first < 200) :
    z + 100 * rest = first + 100 * total ↔
      z + 100 * (decide (100 ≤ first)).toNat = first ∧ rest = total + (decide (100 ≤ first)).toNat := by
  rw [Bool.toNat_decide]
  split_ifs <;> omega

/-- What a row of places comes to: its last carry is the decimal one, and its bytes are right if and only if every
place adjusts. -/
theorem Machine.Chain.decimal_sum {m last : Machine} {xs ys zs : List UInt8}
    (h : Machine.Chain Machine.AddsDecimal m xs ys zs last) (packed : ∀ x ∈ xs, IsPacked x)
    (packed' : ∀ y ∈ ys, IsPacked y) :
    last.flags.carry = decide (100 ^ xs.length ≤ packedNumber xs + packedNumber ys + m.flags.carry.toNat) ∧
      ((∀ z ∈ zs, IsPacked z) ∧ packedNumber zs + 100 ^ xs.length * last.flags.carry.toNat =
          packedNumber xs + packedNumber ys + m.flags.carry.toNat ↔
        Adjusts m.flags.carry xs ys) := by
  induction h with
  | nil m => cases m.flags.carry <;> simp [packedNumber, Adjusts]
  | @cons m next last x y z xs ys zs loaded kept loads worked leaves _ ih =>
    rw [List.forall_mem_cons] at packed packed'
    obtain ⟨lastCarry, rest⟩ := ih packed.2 packed'.2
    have result := worked.result
    rw [kept, loads, leaves] at result
    have place := @decimal_place m.flags.carry x y packed.1 packed'.1
    rw [← result] at place
    obtain ⟨carried, first⟩ := place
    have hx := packedValue_lt packed.1
    have hy := packedValue_lt packed'.1
    have hc := m.flags.carry.toNat_lt
    have lt : packedValue x + packedValue y + m.flags.carry.toNat < 200 := by omega
    have regroup : packedNumber (x :: xs) + packedNumber (y :: ys) + m.flags.carry.toNat =
        packedValue x + packedValue y + m.flags.carry.toNat + 100 * (packedNumber xs + packedNumber ys) := by
      rw [packedNumber_cons, packedNumber_cons]
      omega
    rw [List.length_cons, pow_succ, regroup]
    rw [carried] at lastCarry rest
    constructor
    · rw [lastCarry, decide_eq_decide, carry_of_rows lt]
    · rw [Adjusts, ← first, ← rest, carried, List.forall_mem_cons, packedNumber_cons, mul_right_comm,
        mul_comm _ 100, add_assoc _ _ (100 * _), ← mul_add]
      constructor
      · rintro ⟨⟨digits, others⟩, total⟩
        obtain ⟨place, total⟩ := (sum_of_rows (packedValue_lt digits) lt).mp total
        exact ⟨⟨digits, place⟩, others, total⟩
      · rintro ⟨⟨digits, place⟩, others, total⟩
        exact ⟨⟨digits, others⟩, (sum_of_rows (packedValue_lt digits) lt).mpr ⟨place, total⟩⟩

/-- Addition with the carry and decimal adjustment, byte by byte, always ends with the decimal carry. It leaves the
decimal sum if and only if the auxiliary carry, which marks a byte above nine, tells in every place whether the low
digits come to more than nine. -/
theorem Machine.decimal_chain_exact_iff (m : Machine) (xs ys : List UInt8) (same : xs.length = ys.length)
    (packed : ∀ x ∈ xs, IsPacked x) (packed' : ∀ y ∈ ys, IsPacked y) :
    (∃ zs last, m.Chain Machine.AddsDecimal xs ys zs last) ∧
      ∀ zs last, m.Chain Machine.AddsDecimal xs ys zs last →
        last.flags.carry = decide (100 ^ xs.length ≤ packedNumber xs + packedNumber ys + m.flags.carry.toNat) ∧
          ((∀ z ∈ zs, IsPacked z) ∧ packedNumber zs + 100 ^ xs.length * last.flags.carry.toNat =
              packedNumber xs + packedNumber ys + m.flags.carry.toNat ↔
            Adjusts m.flags.carry xs ys) :=
  ⟨m.exists_chain Machine.exists_addsDecimal same, fun _ _ chain => chain.decimal_sum packed packed'⟩

/-- 875 and 758, whose digits carry in both places. -/
theorem Machine.decimal_chain_exact_iff_twoPlaces :
    ∃ zs last, Machine.Chain Machine.AddsDecimal {} [0x75, 0x08] [0x58, 0x07] zs last ∧
      (∀ z ∈ zs, IsPacked z) ∧ packedNumber zs + 100 ^ 2 * last.flags.carry.toNat = 875 + 758 := by
  obtain ⟨⟨zs, last, chain⟩, exact⟩ :=
    Machine.decimal_chain_exact_iff {} [0x75, 0x08] [0x58, 0x07] rfl (by simp [IsPacked]) (by simp [IsPacked])
  have adjusts : Adjusts false [0x75, 0x08] [0x58, 0x07] := by decide
  exact ⟨zs, last, chain, (exact zs last chain).2.mpr adjusts⟩

/-- Ten and ten make twenty-six: the byte of their sum is above nine, which the adjustment takes for a carry out of
the low digit. -/
theorem Machine.ten_plus_ten_misadjusted :
    IsPacked 0x10 ∧ ∃ last, Machine.Chain Machine.AddsDecimal {} [0x10] [0x10] [0x26] last ∧
      packedNumber [0x26] + 100 ^ 1 * last.flags.carry.toNat ≠ packedNumber [0x10] + packedNumber [0x10] + 0 := by
  let ten : Machine := Machine.setRegister {} .a 0x10
  let sum := (ten.accumulate .adc 0x10).goto (ten.past (.aluImmediate .adc 0x10))
  have adds : ten.AddsDecimal 0x10 _ := ⟨sum, AluOp.adc.works_immediate 0x10 ten, rfl⟩
  exact ⟨by decide, _, .load adds (by decide) (.nil _), by decide⟩

end I8080
