namespace I8080

/-- A digit in base eight, in which the instruction set is laid out. -/
abbrev Digit := Fin 8

/-- The last digit of a number. -/
def digit (n : Nat) : Digit :=
  ⟨n % 8, Nat.mod_lt n (by decide)⟩

/-- The opcode with digits `x`, `y` and `z`. -/
def octal (x y z : Nat) : UInt8 :=
  UInt8.ofNat (64 * x + 8 * y + z)

def Word.low (w : UInt16) : UInt8 :=
  w.toUInt8

def Word.high (w : UInt16) : UInt8 :=
  (w / 256).toUInt8

/-- The word whose bytes stand in memory as `low`, then `high`. -/
def Word.join (low high : UInt8) : UInt16 :=
  high.toUInt16 * 256 + low.toUInt16

theorem Word.toNat_low (w : UInt16) : (Word.low w).toNat = w.toNat % 256 := by
  simp [Word.low]

theorem Word.toNat_high (w : UInt16) : (Word.high w).toNat = w.toNat / 256 := by
  have hw := w.toNat_lt
  simp [Word.high]
  omega

theorem Word.toNat_join (low high : UInt8) :
    (Word.join low high).toNat = 256 * high.toNat + low.toNat := by
  have hl := low.toNat_lt
  have hh := high.toNat_lt
  simp [Word.join]
  omega

theorem Word.join_low_high (w : UInt16) : Word.join (Word.low w) (Word.high w) = w := by
  apply UInt16.toNat_inj.mp
  rw [Word.toNat_join, Word.toNat_low, Word.toNat_high]
  omega

theorem Word.low_join (low high : UInt8) : Word.low (Word.join low high) = low := by
  have hl := low.toNat_lt
  apply UInt8.toNat_inj.mp
  rw [Word.toNat_low, Word.toNat_join]
  omega

theorem Word.high_join (low high : UInt8) : Word.high (Word.join low high) = high := by
  have hl := low.toNat_lt
  apply UInt8.toNat_inj.mp
  rw [Word.toNat_high, Word.toNat_join]
  omega

end I8080
