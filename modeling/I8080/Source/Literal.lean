import I8080.Text.Numeral

namespace I8080

/-- Value of an unsigned literal in lower case. The first form that applies decides: a `0x` before
hexadecimal digits, an `h` after them, a `0b` before binary digits, or decimal digits alone. -/
def Literal.magnitude? (cs : List Char) : Option Nat :=
  match cs with
  | '0' :: 'x' :: digits => Numeral.value? 16 digits
  | _ =>
    if cs.getLast? = some 'h' then Numeral.value? 16 cs.dropLast
    else match cs with
      | '0' :: 'b' :: digits => Numeral.value? 2 digits
      | _ => Numeral.value? 10 cs

/-- Value of a numeric literal in either case, at most `2 ^ 63 - 1` on both sides of zero. -/
def Literal.parse? (cs : List Char) : Option Int :=
  let magnitude := fun digits : List Char =>
    (Literal.magnitude? (digits.map Char.toLower)).filter (· ≤ 0x7FFFFFFFFFFFFFFF)
  match cs with
  | '-' :: digits => (magnitude digits).map fun n => -(n : Int)
  | digits => (magnitude digits).map fun n => (n : Int)

end I8080
