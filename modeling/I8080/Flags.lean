namespace I8080

structure Flags where
  sign : Bool := false
  zero : Bool := false
  aux : Bool := false
  parity : Bool := false
  carry : Bool := false
  deriving DecidableEq

def evenParity (b : UInt8) : Bool :=
  (List.range 8).countP b.toNat.testBit % 2 == 0

/-- Flags after an arithmetic result `raw` before it is cut to a byte: above `0xFF` it carried or borrowed.
The auxiliary carry is set whenever the byte exceeds nine. -/
def Flags.ofResult (raw : UInt16) : Flags :=
  let value := raw.toUInt8
  { sign := 0x80 ≤ value
    zero := value == 0
    aux := 9 < value
    parity := evenParity value
    carry := 0xFF < raw }

/-- Flags after a logical result, which never carries. -/
def Flags.ofLogic (value : UInt8) : Flags :=
  { Flags.ofResult value.toUInt16 with carry := false }

/-- The low byte of the program status word, `S Z 0 AC 0 P 1 C` from its highest bit. -/
def Flags.toByte (f : Flags) : UInt8 :=
  0x80 * f.sign.toUInt8 + 0x40 * f.zero.toUInt8 + 0x10 * f.aux.toUInt8 + 0x04 * f.parity.toUInt8 + 0x02 +
    f.carry.toUInt8

/-- Flags from a program status byte; its three fixed bits are ignored. -/
def Flags.ofByte (b : UInt8) : Flags where
  sign := b.toNat.testBit 7
  zero := b.toNat.testBit 6
  aux := b.toNat.testBit 4
  parity := b.toNat.testBit 2
  carry := b.toNat.testBit 0

theorem Flags.ofByte_toByte (f : Flags) : Flags.ofByte f.toByte = f := by
  obtain ⟨s, z, a, p, c⟩ := f
  revert s z a p c
  decide

end I8080
