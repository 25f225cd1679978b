import I8080.Instr.Text
import I8080.Source.Literal

namespace I8080

theorem Hex.digit_digit : ∀ d < 16, Numeral.digit? 16 (Hex.digit d) = some d := by
  decide

theorem Hex.toLower_digit : ∀ d < 16, (Hex.digit d).toLower = Hex.digit d := by
  decide

theorem Hex.isAlphanum_digit : ∀ d < 16, (Hex.digit d).isAlphanum = true := by
  decide

theorem Hex.mem_digits {width n : Nat} {c : Char} (h : c ∈ Hex.digits width n) : ∃ d < 16, c = Hex.digit d := by
  induction width generalizing n with
  | zero => cases h
  | succ width ih =>
    rcases List.mem_append.mp h with high | low
    · exact ih high
    · exact ⟨n % 16, Nat.mod_lt n (by decide), by simpa using low⟩

/-- Whether a number has at most `width` hexadecimal digits. -/
def Hex.Fits : Nat → Nat → Prop
  | 0, n => n = 0
  | width + 1, n => Hex.Fits width (n / 16)

theorem Hex.foldlM_digits {width n : Nat} (fits : Hex.Fits width n) :
    (Hex.digits width n).foldlM (fun n d => (Numeral.digit? 16 d).map (16 * n + ·)) 0 = some n := by
  induction width generalizing n with
  | zero =>
    have hn : n = 0 := fits
    subst hn
    rfl
  | succ width ih =>
    have hd := Hex.digit_digit (n % 16) (Nat.mod_lt n (by decide))
    have hn : 16 * (n / 16) + n % 16 = n := by omega
    simp [Hex.digits, ih fits, hd, hn]

theorem Hex.value_digits {width n : Nat} (fits : Hex.Fits (width + 1) n) :
    Numeral.value? 16 (Hex.digits (width + 1) n) = some n := by
  have hv := Hex.foldlM_digits fits
  cases hd : Hex.digits (width + 1) n with
  | nil =>
    have := Hex.length_digits (width + 1) n
    simp [hd] at this
  | cons c cs =>
    rw [hd] at hv
    exact hv

theorem Literal.parse?_hex {width n : Nat} (fits : Hex.Fits (width + 1) n) (small : n ≤ 0x7FFFFFFFFFFFFFFF) :
    Literal.parse? ('0' :: 'x' :: Hex.digits (width + 1) n) = some (n : Int) := by
  have lower : (Hex.digits (width + 1) n).map Char.toLower = Hex.digits (width + 1) n := by
    refine (List.map_congr_left fun c hc => ?_).trans (List.map_id _)
    obtain ⟨d, hd, rfl⟩ := Hex.mem_digits hc
    exact Hex.toLower_digit d hd
  simp [Literal.parse?, Literal.magnitude?, lower, Hex.value_digits fits, Option.filter, small]

theorem Literal.parse?_hexByte (b : UInt8) : Literal.parse? (hexByte b).toList = some (b.toNat : Int) := by
  have := b.toNat_lt
  have fits : Hex.Fits 2 b.toNat := by
    simp only [Hex.Fits]
    omega
  simpa [hexByte, Hex.byte] using Literal.parse?_hex fits (by omega)

theorem Literal.parse?_hexWord (w : UInt16) : Literal.parse? (hexWord w).toList = some (w.toNat : Int) := by
  have := w.toNat_lt
  have fits : Hex.Fits 4 w.toNat := by
    simp only [Hex.Fits]
    omega
  simpa [hexWord, Hex.word] using Literal.parse?_hex fits (by omega)

theorem Literal.parse?_digit : ∀ v : Fin 8, Literal.parse? (toString v.val).toList = some (v.val : Int) := by
  decide

end I8080
