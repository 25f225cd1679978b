import I8080.Proofs.Decimal
import I8080.Text.Format

namespace I8080

/-- A text without control characters. -/
def Printable (s : String) : Prop :=
  ∀ c ∈ s.toList, ' ' ≤ c

instance (s : String) : Decidable (Printable s) :=
  List.decidableBAll _ _

theorem printable_append {s t : String} : Printable (s ++ t) ↔ Printable s ∧ Printable t := by
  simp [Printable, or_imp, forall_and]

theorem printable_singleton {c : Char} (h : ' ' ≤ c) : Printable (String.singleton c) := by
  intro d mem
  rw [String.toList_singleton, List.mem_singleton] at mem
  exact mem ▸ h

theorem Printable.newline_not_mem {s : String} (h : Printable s) : '\n' ∉ s.toList :=
  fun mem => absurd (h _ mem) (by decide)

theorem Hex.blank_le_digit : ∀ d < 16, ' ' ≤ Hex.digit d := by
  decide

theorem printable_digits (width n : Nat) : Printable (String.ofList (Hex.digits width n)) := by
  intro c mem
  rw [String.toList_ofList] at mem
  obtain ⟨d, small, rfl⟩ := Hex.mem_digits mem
  exact Hex.blank_le_digit d small

theorem printable_hexByte (b : UInt8) : Printable (hexByte b) :=
  printable_append.mpr ⟨by decide, printable_digits 2 b.toNat⟩

theorem printable_hexWord (w : UInt16) : Printable (hexWord w) :=
  printable_append.mpr ⟨by decide, printable_digits 4 w.toNat⟩

theorem printable_right {width : Nat} {s : String} (h : Printable s) : Printable (Column.right width s) := by
  intro c mem
  rw [Column.right, String.toList_ofList, List.leftpad, List.mem_append] at mem
  rcases mem with padding | text
  · obtain rfl := List.eq_of_mem_replicate padding
    decide
  · exact h c text

theorem printable_toString (n : Int) : Printable (toString n) := by
  have digit {c : Char} (mem : c ∈ Nat.toDigits 10 n.natAbs) : ' ' ≤ c := by
    have bounds : '0' ≤ c ∧ c ≤ '9' := by
      simpa [Char.isDigit, Char.le_def] using isDigit_toDigits n.natAbs c mem
    exact Char.le_trans (by decide) bounds.1
  intro c mem
  rw [toList_toString] at mem
  split at mem
  next => exact digit mem
  next =>
    rcases List.mem_cons.mp mem with rfl | mem
    · decide
    · exact digit mem

theorem printable_natToString (n : Nat) : Printable (toString n) :=
  printable_toString n

end I8080
