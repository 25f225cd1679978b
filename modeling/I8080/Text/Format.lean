namespace I8080

def Hex.digit (n : Nat) : Char :=
  Char.ofNat (if n < 10 then '0'.toNat + n else 'a'.toNat + (n - 10))

/-- The last `width` hexadecimal digits of `n`, most significant first. -/
def Hex.digits : Nat → Nat → List Char
  | 0, _ => []
  | width + 1, n => Hex.digits width (n / 16) ++ [Hex.digit (n % 16)]

theorem Hex.length_digits (width n : Nat) : (Hex.digits width n).length = width := by
  induction width generalizing n with
  | zero => rfl
  | succ width ih => simp [Hex.digits, ih]

def Hex.byte (b : UInt8) : String :=
  String.ofList (Hex.digits 2 b.toNat)

def Hex.word (w : UInt16) : String :=
  String.ofList (Hex.digits 4 w.toNat)

/-- Bytes in memory order with one blank between neighbours. -/
def Hex.row (bytes : List UInt8) : String :=
  " ".intercalate (bytes.map Hex.byte)

/-- Text flush left in a column of `width` characters; a longer text is kept whole. -/
def Column.left (width : Nat) (s : String) : String :=
  String.ofList (s.toList.rightpad width ' ')

/-- Text flush right in a column of `width` characters; a longer text is kept whole. -/
def Column.right (width : Nat) (s : String) : String :=
  String.ofList (s.toList.leftpad width ' ')

end I8080
