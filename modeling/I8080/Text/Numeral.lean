namespace I8080

/-- Value of an ASCII digit or lower-case letter as a digit in `radix`; the letters count on from ten. -/
def Numeral.digit? (radix : Nat) (c : Char) : Option Nat :=
  let value :=
    if '0' ≤ c ∧ c ≤ '9' then c.toNat - '0'.toNat
    else if 'a' ≤ c ∧ c ≤ 'z' then c.toNat - 'a'.toNat + 10
    else radix
  if value < radix then some value else none

/-- Positional value of a nonempty row of digits, most significant first. -/
def Numeral.value? (radix : Nat) : List Char → Option Nat
  | [] => none
  | c :: cs => (c :: cs).foldlM (fun n d => (Numeral.digit? radix d).map (radix * n + ·)) 0

/-- An unsigned decimal number that fits in 64 bits; one leading `+` is allowed. -/
def Numeral.unsigned? (cs : List Char) : Option Nat :=
  let digits := match cs with
    | '+' :: rest => rest
    | _ => cs
  (Numeral.value? 10 digits).filter (· ≤ 0xFFFFFFFFFFFFFFFF)

/-- The characters with the Unicode property `White_Space`, as ranges of code points. -/
def Blank.ranges : List (Nat × Nat) :=
  [(0x09, 0x0D), (0x20, 0x20), (0x85, 0x85), (0xA0, 0xA0), (0x1680, 0x1680), (0x2000, 0x200A),
    (0x2028, 0x2029), (0x202F, 0x202F), (0x205F, 0x205F), (0x3000, 0x3000)]

def isBlank (c : Char) : Bool :=
  Blank.ranges.any fun (first, last) => first ≤ c.toNat && c.toNat ≤ last

/-- Text without the blanks at its two ends. -/
def trimBlank (cs : List Char) : List Char :=
  ((cs.dropWhile isBlank).reverse.dropWhile isBlank).reverse

end I8080
