import I8080.Proofs.Lexeme
import I8080.Proofs.Literal

namespace I8080

theorem Numeral.digit?_of_isDigit {c : Char} (h : c.isDigit = true) :
    Numeral.digit? 10 c = some (c.toNat - '0'.toNat) := by
  have bounds : '0' ≤ c ∧ c ≤ '9' := by
    simpa [Char.isDigit, Char.le_def] using h
  have small : c.toNat - '0'.toNat < 10 := by
    have le : c.toNat ≤ 57 := UInt32.le_iff_toNat_le.mp (Char.le_def.mp bounds.2)
    have zero : '0'.toNat = 48 := rfl
    omega
  rw [Numeral.digit?, if_pos bounds]
  exact if_pos small

/-- A row of decimal digits stands for the number that they spell. -/
theorem Numeral.value?_digits {cs : List Char} (nonempty : cs ≠ []) (digits : ∀ c ∈ cs, c.isDigit = true) :
    Numeral.value? 10 cs = some (Nat.ofDigitChars 10 cs 0) := by
  have fold : ∀ n, cs.foldlM (fun n d => (Numeral.digit? 10 d).map (10 * n + ·)) n =
      some (Nat.ofDigitChars 10 cs n) := by
    clear nonempty
    induction cs with
    | nil => exact fun n => rfl
    | cons c cs ih =>
      intro n
      rw [List.foldlM_cons, Numeral.digit?_of_isDigit (digits c List.mem_cons_self)]
      exact ih (fun d hd => digits d (List.mem_cons_of_mem _ hd)) _
  obtain ⟨c, rest, rfl⟩ := List.exists_cons_of_ne_nil nonempty
  exact fold 0

theorem toLower_of_isDigit {c : Char} (h : c.isDigit = true) : c.toLower = c := by
  have upper : c.isUpper = false := (Bool.or_eq_false_iff.mp (not_isAlpha_of_isDigit h)).1
  exact dif_neg (of_decide_eq_false upper)

/-- Decimal digits are no literal of another form. -/
theorem Literal.magnitude?_digits {cs : List Char} (digits : ∀ c ∈ cs, c.isDigit = true) :
    Literal.magnitude? cs = Numeral.value? 10 cs := by
  unfold Literal.magnitude?
  split
  next rest => exact absurd rfl (ne_of_isDigit (digits 'x' (by simp)) (by decide))
  next =>
    have last : cs.getLast? ≠ some 'h' := fun h =>
      ne_of_isDigit (digits 'h' (List.mem_of_getLast? h)) (by decide) rfl
    rw [if_neg last]
    split
    next rest => exact absurd rfl (ne_of_isDigit (digits 'b' (by simp)) (by decide))
    next => rfl

theorem isDigit_toDigits (n : Nat) : ∀ c ∈ Nat.toDigits 10 n, c.isDigit = true :=
  fun _ hc => Nat.isDigit_of_mem_toDigits (by decide) (by decide) hc

theorem Literal.magnitude?_toDigits (n : Nat) : Literal.magnitude? ((Nat.toDigits 10 n).map Char.toLower) = some n := by
  have lower : (Nat.toDigits 10 n).map Char.toLower = Nat.toDigits 10 n :=
    (List.map_congr_left fun c hc => toLower_of_isDigit (isDigit_toDigits n c hc)).trans (List.map_id _)
  rw [lower, Literal.magnitude?_digits (isDigit_toDigits n),
    Numeral.value?_digits Nat.toDigits_ne_nil (isDigit_toDigits n), Nat.ofDigitChars_ten_toDigits]

/-- The decimal form of a number: its digits, after a sign if it is negative. -/
theorem toList_toString (n : Int) :
    (toString n).toList = if 0 ≤ n then Nat.toDigits 10 n.natAbs else '-' :: Nat.toDigits 10 n.natAbs := by
  rw [Int.toString_eq_repr, Int.repr_eq_if]
  split
  next nonneg =>
    have same : n.toNat = n.natAbs := by omega
    rw [same, Nat.repr_eq_ofList_toDigits, String.toList_ofList]
  next negative =>
    have same : (-n).toNat = n.natAbs := by omega
    simp [same, Nat.repr_eq_ofList_toDigits]

/-- What is written in decimal is read as it was. -/
theorem Literal.parse?_toString {n : Int} (small : n.natAbs ≤ 0x7FFFFFFFFFFFFFFF) :
    Literal.parse? (toString n).toList = some n := by
  have magnitude : (Literal.magnitude? ((Nat.toDigits 10 n.natAbs).map Char.toLower)).filter
      (· ≤ 0x7FFFFFFFFFFFFFFF) = some n.natAbs := by
    rw [Literal.magnitude?_toDigits]
    simp [Option.filter, small]
  rw [toList_toString]
  split
  next nonneg =>
    have unsigned : ∀ digits, Nat.toDigits 10 n.natAbs ≠ '-' :: digits := by
      intro digits sign
      have digit : '-'.isDigit = true := isDigit_toDigits n.natAbs '-' (sign ▸ List.mem_cons_self)
      cases digit
    unfold Literal.parse?
    split
    next digits sign => exact absurd sign (unsigned digits)
    next =>
      dsimp only
      rw [magnitude]
      exact congrArg some (Int.natAbs_of_nonneg nonneg)
  next negative =>
    have value : -(n.natAbs : Int) = n := by omega
    simp only [Literal.parse?, magnitude]
    exact congrArg some value

end I8080
