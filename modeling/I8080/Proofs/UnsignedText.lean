import I8080.Proofs.LiteralForm
import I8080.Text.Numeral
import Mathlib.Data.List.TakeWhile

namespace I8080

/-- Blanks, a text that neither starts nor ends with a blank, and blanks again. -/
inductive Trims : List Char → List Char → Prop
  | around (before core after : List Char) (leading : ∀ c ∈ before, isBlank c = true)
      (trailing : ∀ c ∈ after, isBlank c = true) (first : ∀ c ∈ core.head?, isBlank c = false)
      (last : ∀ c ∈ core.getLast?, isBlank c = false) : Trims (before ++ core ++ after) core

/-- Decimal digits of a number of 64 bits. A plus may stand before them. -/
def Numeral.Unsigned (cs : List Char) (n : Nat) : Prop :=
  ∃ digits, (cs = digits ∨ cs = '+' :: digits) ∧ Numeral.Spells 10 digits n ∧ n ≤ 0xFFFFFFFFFFFFFFFF

theorem head?_dropWhile_isBlank (cs : List Char) : ∀ c ∈ (cs.dropWhile isBlank).head?, isBlank c = false := by
  intro c head
  have stops := List.head?_dropWhile_not isBlank cs
  rwa [Option.mem_def.mp head] at stops

theorem dropWhile_isBlank_of_head {cs : List Char} (first : ∀ c ∈ cs.head?, isBlank c = false) :
    cs.dropWhile isBlank = cs := by
  cases cs with
  | nil => rfl
  | cons c cs => exact List.dropWhile_cons_of_neg (by simp [first c rfl])

theorem trims_trimBlank (cs : List Char) : Trims cs (trimBlank cs) := by
  have front := List.takeWhile_append_dropWhile (p := isBlank) (l := cs)
  have back := List.takeWhile_append_dropWhile (p := isBlank) (l := (cs.dropWhile isBlank).reverse)
  have rest : cs.dropWhile isBlank =
      trimBlank cs ++ ((cs.dropWhile isBlank).reverse.takeWhile isBlank).reverse := by
    rw [trimBlank, ← List.reverse_append, back, List.reverse_reverse]
  have parts := Trims.around (cs.takeWhile isBlank) (trimBlank cs)
    ((cs.dropWhile isBlank).reverse.takeWhile isBlank).reverse (fun _ mem => List.mem_takeWhile_imp mem)
    (fun _ mem => List.mem_takeWhile_imp (List.mem_reverse.mp mem)) ?first ?last
  case first =>
    intro c head
    refine head?_dropWhile_isBlank cs c ?_
    rw [rest, List.head?_append, Option.mem_def.mp head]
    rfl
  case last =>
    intro c last
    rw [trimBlank, List.getLast?_reverse] at last
    exact head?_dropWhile_isBlank _ c last
  rwa [List.append_assoc, ← rest, front] at parts

theorem Trims.trimBlank_eq {cs core : List Char} (h : Trims cs core) : trimBlank cs = core := by
  obtain ⟨before, core, after, leading, trailing, first, last⟩ := h
  have ends : core.reverse.dropWhile isBlank = core.reverse :=
    dropWhile_isBlank_of_head (by rwa [List.head?_reverse])
  rw [trimBlank, List.append_assoc, List.dropWhile_append_of_pos leading]
  cases core with
  | nil => rw [List.nil_append, List.dropWhile_eq_nil_iff.mpr trailing]; rfl
  | cons c core =>
    have begins : ∀ d ∈ (c :: core ++ after).head?, isBlank d = false := first
    rw [dropWhile_isBlank_of_head begins, List.reverse_append,
      List.dropWhile_append_of_pos (by simpa using trailing), ends, List.reverse_reverse]

theorem Numeral.Spells.head?_ne_plus {digits : List Char} {n : Nat} (h : Numeral.Spells 10 digits n) :
    digits.head? ≠ some '+' := by
  intro plus
  obtain ⟨rest, rfl⟩ := List.head?_eq_some_iff.mp plus
  exact h.not_mem (by decide : ∀ d < 10, Nat.digitChar d ≠ '+') List.mem_cons_self

/-- A number is read from its digits, with or without a plus. -/
theorem Numeral.unsigned?_eq_some_iff {cs : List Char} {n : Nat} :
    Numeral.unsigned? cs = some n ↔ Numeral.Unsigned cs n := by
  unfold Numeral.unsigned? Numeral.Unsigned
  simp only [Option.filter_eq_some_iff, Numeral.value?_eq_some_iff (by decide : 10 ≤ 16), decide_eq_true_eq]
  split
  next rest =>
    constructor
    · rintro ⟨spells, small⟩
      exact ⟨rest, .inr rfl, spells, small⟩
    · rintro ⟨digits, rfl | signed, spells, small⟩
      · exact absurd rfl spells.head?_ne_plus
      · cases signed
        exact ⟨spells, small⟩
  next unsigned =>
    constructor
    · rintro ⟨spells, small⟩
      exact ⟨cs, .inl rfl, spells, small⟩
    · rintro ⟨digits, rfl | signed, spells, small⟩
      · exact ⟨spells, small⟩
      · exact absurd signed (unsigned digits)

end I8080
