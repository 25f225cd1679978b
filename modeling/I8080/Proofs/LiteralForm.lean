import I8080.Assembly.Statement
import Mathlib.Data.Nat.Digits.Lemmas

namespace I8080

/-- A row of digits, those above nine in lower case, and the number that stands there in a radix. -/
def Numeral.Spells (radix : Nat) (cs : List Char) (n : Nat) : Prop :=
  ∃ digits : List Nat, digits ≠ [] ∧ (∀ d ∈ digits, d < radix) ∧ cs = digits.map Nat.digitChar ∧
    n = Nat.ofDigits radix digits.reverse

/-- The digits of a literal without its sign, in lower case, and their radix. The first form that applies decides. -/
inductive Literal.Form : List Char → Nat → List Char → Prop
  | hexMark (digits : List Char) : Form ('0' :: 'x' :: digits) 16 digits
  | hexSuffix (digits : List Char) (unmarked : ¬['0', 'x'] <+: digits ++ ['h']) : Form (digits ++ ['h']) 16 digits
  | binaryMark (digits : List Char) (plain : ¬['h'] <:+ '0' :: 'b' :: digits) : Form ('0' :: 'b' :: digits) 2 digits
  | decimal (digits : List Char) (unmarked : ¬['0', 'x'] <+: digits) (plain : ¬['h'] <:+ digits)
      (other : ¬['0', 'b'] <+: digits) : Form digits 10 digits

/-- A literal without its sign, in either case, and its value. -/
def Literal.Measures (body : List Char) (n : Nat) : Prop :=
  ∃ radix digits, Literal.Form (body.map Char.toLower) radix digits ∧ Numeral.Spells radix digits n ∧
    n ≤ 0x7FFFFFFFFFFFFFFF

/-- The number that a literal stands for. One sign at most may stand before it. -/
inductive Literal.Denotes : List Char → Int → Prop
  | plain {body : List Char} {n : Nat} (unsigned : body.head? ≠ some '-') (h : Literal.Measures body n) :
      Denotes body n
  | negated {body : List Char} {n : Nat} (h : Literal.Measures body n) : Denotes ('-' :: body) (-n)

/-- How a number may be written in lower case, with any number of zeros before its digits. -/
inductive Literal.Spelling (n : Nat) : List Char → Prop
  | decimal (zeros : Nat) : Spelling n (List.replicate zeros '0' ++ Nat.toDigits 10 n)
  | hexMark (zeros : Nat) : Spelling n ('0' :: 'x' :: (List.replicate zeros '0' ++ Nat.toDigits 16 n))
  | hexSuffix (zeros : Nat) : Spelling n (List.replicate zeros '0' ++ Nat.toDigits 16 n ++ ['h'])
  | binaryMark (zeros : Nat) : Spelling n ('0' :: 'b' :: (List.replicate zeros '0' ++ Nat.toDigits 2 n))

theorem Numeral.digit?_digitChar : ∀ radix < 17, ∀ d < radix, Numeral.digit? radix (Nat.digitChar d) = some d := by
  decide

theorem digitChar_eq_ofNat : ∀ d < 16, Nat.digitChar d = Char.ofNat (if d < 10 then d + 48 else d + 87) := by
  decide

theorem Numeral.digit?_eq_some_iff {radix : Nat} (small : radix ≤ 16) {c : Char} {d : Nat} :
    Numeral.digit? radix c = some d ↔ d < radix ∧ c = Nat.digitChar d := by
  constructor
  · intro h
    unfold Numeral.digit? at h
    obtain ⟨below, value⟩ := Option.ite_none_right_eq_some.mp h
    rw [Option.some.inj value] at below
    refine ⟨below, ?_⟩
    rw [digitChar_eq_ofNat d (Nat.lt_of_lt_of_le below small), ← Char.ofNat_toNat c]
    have value := Option.some.inj value
    have zero : '0'.toNat = 48 := rfl
    have ten : 'a'.toNat = 97 := rfl
    congr 1
    split at value
    next decimal =>
      have low : 48 ≤ c.toNat := UInt32.le_iff_toNat_le.mp (Char.le_def.mp decimal.1)
      have high : c.toNat ≤ 57 := UInt32.le_iff_toNat_le.mp (Char.le_def.mp decimal.2)
      rw [if_pos (by omega)]
      omega
    next =>
      split at value
      next letter =>
        have low : 97 ≤ c.toNat := UInt32.le_iff_toNat_le.mp (Char.le_def.mp letter.1)
        rw [if_neg (by omega)]
        omega
      next => omega
  · rintro ⟨below, rfl⟩
    exact Numeral.digit?_digitChar radix (Nat.lt_succ_of_le small) d below

/-- Reading on from a number appends digits to it. -/
theorem Numeral.foldlM_eq_some_iff {radix : Nat} (small : radix ≤ 16) {cs : List Char} {start n : Nat} :
    cs.foldlM (fun n c => (Numeral.digit? radix c).map (radix * n + ·)) start = some n ↔
      ∃ digits : List Nat, (∀ d ∈ digits, d < radix) ∧ cs = digits.map Nat.digitChar ∧
        n = digits.foldl (fun n d => radix * n + d) start := by
  induction cs generalizing start with
  | nil => simp [eq_comm]
  | cons c cs ih =>
    rw [List.foldlM_cons]
    constructor
    · intro h
      obtain ⟨next, first, rest⟩ := Option.bind_eq_some_iff.mp h
      obtain ⟨d, digit, rfl⟩ := Option.map_eq_some_iff.mp first
      obtain ⟨below, rfl⟩ := (Numeral.digit?_eq_some_iff small).mp digit
      obtain ⟨digits, all, rfl, value⟩ := ih.mp rest
      exact ⟨d :: digits, List.forall_mem_cons.mpr ⟨below, all⟩, rfl, value⟩
    · rintro ⟨digits, all, split, value⟩
      obtain ⟨d, digits, rfl, rfl, rfl⟩ := List.map_eq_cons_iff.mp split.symm
      rw [List.forall_mem_cons] at all
      rw [(Numeral.digit?_eq_some_iff small).mpr ⟨all.1, rfl⟩]
      exact ih.mpr ⟨digits, all.2, rfl, value⟩

theorem ofDigits_reverse (radix : Nat) (digits : List Nat) :
    Nat.ofDigits radix digits.reverse = digits.foldl (fun n d => radix * n + d) 0 := by
  rw [Nat.ofDigits_eq_foldr, List.foldr_reverse]
  simp [Nat.add_comm]

/-- A row of digits is read as the number that stands there. -/
theorem Numeral.value?_eq_some_iff {radix : Nat} (small : radix ≤ 16) {cs : List Char} {n : Nat} :
    Numeral.value? radix cs = some n ↔ Numeral.Spells radix cs n := by
  unfold Numeral.Spells
  cases cs with
  | nil =>
    refine iff_of_false nofun ?_
    rintro ⟨digits, filled, -, empty, -⟩
    exact filled (List.map_eq_nil_iff.mp empty.symm)
  | cons c cs =>
    rw [Numeral.value?, Numeral.foldlM_eq_some_iff small]
    simp only [ofDigits_reverse]
    refine exists_congr fun digits => ?_
    constructor
    · rintro ⟨all, split, value⟩
      refine ⟨?_, all, split, value⟩
      rintro rfl
      cases split
    · rintro ⟨-, all, split, value⟩
      exact ⟨all, split, value⟩

theorem getLast?_eq_of_suffix {mark : Char} {cs : List Char} : cs.getLast? = some mark ↔ [mark] <:+ cs := by
  rw [List.getLast?_eq_some_iff]
  exact exists_congr fun _ => eq_comm

/-- The digits of a form are what is read, in its radix. -/
theorem Literal.Form.magnitude?_eq {cs digits : List Char} {radix : Nat} (h : Literal.Form cs radix digits) :
    Literal.magnitude? cs = Numeral.value? radix digits := by
  cases h with
  | hexMark => rfl
  | hexSuffix digits unmarked =>
    unfold Literal.magnitude?
    split
    next rest marked => exact absurd ⟨rest, marked.symm⟩ unmarked
    next => rw [List.getLast?_concat, if_pos rfl, List.dropLast_concat]
  | binaryMark digits plain => exact if_neg (mt getLast?_eq_of_suffix.mp plain)
  | decimal digits unmarked plain other =>
    unfold Literal.magnitude?
    split
    next rest => exact absurd ⟨rest, rfl⟩ unmarked
    next =>
      rw [if_neg (mt getLast?_eq_of_suffix.mp plain)]
      split
      next rest _ => exact absurd ⟨rest, rfl⟩ other
      next => rfl

theorem Literal.Form.radix_le {cs digits : List Char} {radix : Nat} (h : Literal.Form cs radix digits) :
    radix ≤ 16 := by
  cases h <;> decide

theorem Literal.exists_form (cs : List Char) : ∃ radix digits, Literal.Form cs radix digits := by
  by_cases marked : ['0', 'x'] <+: cs
  · obtain ⟨digits, rfl⟩ := marked
    exact ⟨16, digits, .hexMark digits⟩
  by_cases suffixed : ['h'] <:+ cs
  · obtain ⟨digits, rfl⟩ := suffixed
    exact ⟨16, digits, .hexSuffix digits marked⟩
  by_cases binary : ['0', 'b'] <+: cs
  · obtain ⟨digits, rfl⟩ := binary
    exact ⟨2, digits, .binaryMark digits suffixed⟩
  · exact ⟨10, cs, .decimal cs marked suffixed binary⟩

theorem Literal.measures_iff {body : List Char} {n : Nat} :
    (Literal.magnitude? (body.map Char.toLower)).filter (· ≤ 0x7FFFFFFFFFFFFFFF) = some n ↔
      Literal.Measures body n := by
  rw [Option.filter_eq_some_iff, decide_eq_true_iff]
  constructor
  · rintro ⟨value, small⟩
    obtain ⟨radix, digits, form⟩ := Literal.exists_form (body.map Char.toLower)
    rw [form.magnitude?_eq, Numeral.value?_eq_some_iff form.radix_le] at value
    exact ⟨radix, digits, form, value, small⟩
  · rintro ⟨radix, digits, form, value, small⟩
    rw [form.magnitude?_eq, Numeral.value?_eq_some_iff form.radix_le]
    exact ⟨value, small⟩

theorem Literal.parse?_eq_some_iff {text : List Char} {v : Int} :
    Literal.parse? text = some v ↔ Literal.Denotes text v := by
  unfold Literal.parse?
  dsimp only
  split
  next digits =>
    rw [Option.map_eq_some_iff]
    constructor
    · rintro ⟨m, magnitude, rfl⟩
      obtain ⟨n, measures, same⟩ := Option.bind_eq_some_iff.mp magnitude
      cases same
      exact .negated (Literal.measures_iff.mp measures)
    · intro h
      cases h with
      | plain unsigned => exact absurd rfl unsigned
      | @negated _ n h => exact ⟨n, Option.bind_eq_some_iff.mpr ⟨n, Literal.measures_iff.mpr h, rfl⟩, rfl⟩
  next unsigned =>
    rw [Option.map_eq_some_iff]
    constructor
    · rintro ⟨m, magnitude, rfl⟩
      obtain ⟨n, measures, same⟩ := Option.bind_eq_some_iff.mp magnitude
      cases same
      refine .plain (fun sign => ?_) (Literal.measures_iff.mp measures)
      obtain ⟨rest, rfl⟩ := List.head?_eq_some_iff.mp sign
      exact unsigned rest rfl
    · intro h
      cases h with
      | @plain _ n _ h => exact ⟨n, Option.bind_eq_some_iff.mpr ⟨n, Literal.measures_iff.mpr h, rfl⟩, rfl⟩
      | negated => exact absurd rfl (unsigned _)

/-- A number token stands for the number that its text denotes; where it denotes none, its text is reported. -/
theorem Token.operand_of_number {t : Token} (number : t.kind = .number) (labels : LabelTable) (kind : OperandKind) :
    (∀ v, t.operand labels kind = .ok (.value v) ↔ Literal.Denotes t.text v) ∧
      ((∀ v, ¬Literal.Denotes t.text v) → t.operand labels kind = .error ⟨t.span, .malformedLiteral t.name⟩) := by
  simp only [← Literal.parse?_eq_some_iff, Token.operand, if_pos number]
  cases Literal.parse? t.text <;> simp

theorem Numeral.Spells.concat {radix : Nat} {cs : List Char} {n d : Nat} (h : Numeral.Spells radix cs n)
    (below : d < radix) : Numeral.Spells radix (cs ++ [Nat.digitChar d]) (radix * n + d) := by
  obtain ⟨digits, -, all, rfl, rfl⟩ := h
  refine ⟨digits ++ [d], by simp, ?_, by simp, ?_⟩
  · rw [List.forall_mem_append, List.forall_mem_singleton]
    exact ⟨all, below⟩
  · rw [ofDigits_reverse, ofDigits_reverse, List.foldl_append]
    rfl

theorem Numeral.spells_toDigits {radix : Nat} (base : 1 < radix) (n : Nat) :
    Numeral.Spells radix (Nat.toDigits radix n) n := by
  induction n using Nat.strongRecOn with
  | ind n ih =>
    rw [Nat.toDigits_eq_if base]
    split
    next below => exact ⟨[n], by simp, by simpa using below, rfl, by simp⟩
    next above =>
      have smaller : n / radix < n := Nat.div_lt_self (by omega) base
      have value := (ih (n / radix) smaller).concat (Nat.mod_lt n (by omega))
      rwa [Nat.div_add_mod] at value

/-- Zeros before a number change nothing. -/
theorem Numeral.Spells.zeros {radix : Nat} {cs : List Char} {n : Nat} (h : Numeral.Spells radix cs n)
    (base : 0 < radix) (count : Nat) : Numeral.Spells radix (List.replicate count '0' ++ cs) n := by
  induction count with
  | zero => exact h
  | succ count ih =>
    obtain ⟨digits, -, all, split, rfl⟩ := ih
    refine ⟨0 :: digits, by simp, List.forall_mem_cons.mpr ⟨base, all⟩, ?_, ?_⟩
    · rw [List.replicate_succ, List.cons_append, split]
      rfl
    · rw [ofDigits_reverse, ofDigits_reverse, List.foldl_cons, Nat.mul_zero]

theorem Numeral.Spells.not_mem {radix : Nat} {cs : List Char} {n : Nat} (h : Numeral.Spells radix cs n)
    {mark : Char} (other : ∀ d < radix, Nat.digitChar d ≠ mark) : mark ∉ cs := by
  obtain ⟨digits, -, all, rfl, -⟩ := h
  intro mem
  obtain ⟨d, hd, same⟩ := List.mem_map.mp mem
  exact other d (all d hd) same

/-- Digits of any radix in use are neither a mark nor a sign. -/
theorem digitChar_ne_mark : ∀ d < 16, Nat.digitChar d ≠ 'x' ∧ Nat.digitChar d ≠ 'h' ∧ Nat.digitChar d ≠ '-' := by
  decide

theorem Numeral.Spells.unmarked {radix : Nat} {cs : List Char} {n : Nat} (h : Numeral.Spells radix cs n)
    (small : radix ≤ 16) : 'x' ∉ cs ∧ 'h' ∉ cs ∧ '-' ∉ cs := by
  have digit : ∀ d < radix, d < 16 := fun d below => Nat.lt_of_lt_of_le below small
  exact ⟨h.not_mem fun d below => (digitChar_ne_mark d (digit d below)).1,
    h.not_mem fun d below => (digitChar_ne_mark d (digit d below)).2.1,
    h.not_mem fun d below => (digitChar_ne_mark d (digit d below)).2.2⟩

theorem Numeral.spells_padded {radix : Nat} (base : 1 < radix) (zeros n : Nat) :
    Numeral.Spells radix (List.replicate zeros '0' ++ Nat.toDigits radix n) n :=
  (Numeral.spells_toDigits base n).zeros (Nat.zero_lt_of_lt base) zeros

/-- Each spelling has a form, in which the digits stand for the number. -/
theorem Literal.Spelling.form {n : Nat} {cs : List Char} (h : Literal.Spelling n cs) :
    ∃ radix digits, Literal.Form cs radix digits ∧ Numeral.Spells radix digits n := by
  cases h with
  | decimal zeros =>
    have spells := Numeral.spells_padded (by decide : 1 < 10) zeros n
    obtain ⟨hex, suffix, -⟩ := spells.unmarked (by decide)
    have binary := spells.not_mem (by decide : ∀ d < 10, Nat.digitChar d ≠ 'b')
    refine ⟨10, _, .decimal _ (fun marked => hex ?_) (fun suffixed => suffix ?_) (fun marked => binary ?_), spells⟩
    · exact marked.subset (by simp)
    · exact suffixed.subset (by simp)
    · exact marked.subset (by simp)
  | hexMark zeros => exact ⟨16, _, .hexMark _, Numeral.spells_padded (by decide) zeros n⟩
  | hexSuffix zeros =>
    have spells := Numeral.spells_padded (by decide : 1 < 16) zeros n
    refine ⟨16, _, .hexSuffix _ fun marked => ?_, spells⟩
    rcases List.mem_append.mp (marked.subset (by simp : 'x' ∈ ['0', 'x'])) with digit | suffix
    · exact (spells.unmarked (by decide)).1 digit
    · cases List.mem_singleton.mp suffix
  | binaryMark zeros =>
    have spells := Numeral.spells_padded (by decide : 1 < 2) zeros n
    refine ⟨2, _, .binaryMark _ fun suffixed => ?_, spells⟩
    have mem : 'h' ∈ '0' :: 'b' :: (List.replicate zeros '0' ++ Nat.toDigits 2 n) := suffixed.subset (by simp)
    rcases List.mem_cons.mp mem with same | mem
    · cases same
    rcases List.mem_cons.mp mem with same | digit
    · cases same
    · exact (spells.unmarked (by decide)).2.1 digit

theorem Literal.Spelling.unsigned {n : Nat} {cs : List Char} (h : Literal.Spelling n cs) : '-' ∉ cs := by
  have plain {radix : Nat} (base : 1 < radix) (small : radix ≤ 16) (zeros : Nat) :
      '-' ∉ List.replicate zeros '0' ++ Nat.toDigits radix n :=
    ((Numeral.spells_padded base zeros n).unmarked small).2.2
  cases h with
  | decimal zeros => exact plain (by decide) (by decide) zeros
  | hexMark zeros | binaryMark zeros => simpa using plain (by decide) (by decide) zeros
  | hexSuffix zeros =>
    rw [List.mem_append, not_or]
    exact ⟨plain (by decide) (by decide) zeros, by simp⟩

theorem Literal.parse?_of_spelling {n : Nat} {body : List Char} (small : n ≤ 0x7FFFFFFFFFFFFFFF)
    (h : Literal.Spelling n (body.map Char.toLower)) :
    Literal.parse? body = some (n : Int) ∧ Literal.parse? ('-' :: body) = some (-n : Int) := by
  obtain ⟨radix, digits, form, spells⟩ := h.form
  have measures : Literal.Measures body n := ⟨radix, digits, form, spells, small⟩
  have unsigned : body.head? ≠ some '-' := by
    intro sign
    obtain ⟨rest, rfl⟩ := List.head?_eq_some_iff.mp sign
    exact h.unsigned List.mem_cons_self
  rw [Literal.parse?_eq_some_iff, Literal.parse?_eq_some_iff]
  exact ⟨.plain unsigned measures, .negated measures⟩

/-- Literals are read as the numbers that they denote, others are reported with their text, and every number that
fits can be written in each of the forms. -/
theorem Literal.denotes_exactly :
    (∀ text v, Literal.parse? text = some v ↔ Literal.Denotes text v) ∧
      (∀ (t : Token) (labels : LabelTable) (kind : OperandKind), t.kind = .number →
        (∀ v, t.operand labels kind = .ok (.value v) ↔ Literal.Denotes t.text v) ∧
          ((∀ v, ¬Literal.Denotes t.text v) →
            t.operand labels kind = .error ⟨t.span, .malformedLiteral t.name⟩)) ∧
      ∀ (n : Nat) (body : List Char), n ≤ 0x7FFFFFFFFFFFFFFF → Literal.Spelling n (body.map Char.toLower) →
        Literal.parse? body = some (n : Int) ∧ Literal.parse? ('-' :: body) = some (-n : Int) :=
  ⟨fun _ _ => Literal.parse?_eq_some_iff, fun _ labels kind number => Token.operand_of_number number labels kind,
    fun _ _ small h => Literal.parse?_of_spelling small h⟩

/-- A suffix decides before the mark of binary digits does, and a mark alone is no number. -/
theorem Literal.denotes_exactly_suffix :
    let body := "00B1h".toList
    let bare : Token := ⟨.number, "0x".toList, 0⟩
    Literal.Spelling 0xB1 (body.map Char.toLower) ∧ Literal.parse? body = some 0xB1 ∧
      Literal.parse? ('-' :: body) = some (-0xB1) ∧ (∀ v, ¬Literal.Denotes bare.text v) ∧
      bare.operand {} .byte = .error ⟨⟨0, 2⟩, .malformedLiteral "0x"⟩ := by
  intro body bare
  have lower : body.map Char.toLower = List.replicate 2 '0' ++ Nat.toDigits 16 0xB1 ++ ['h'] := by decide
  have spelling : Literal.Spelling 0xB1 (body.map Char.toLower) := lower ▸ .hexSuffix 2
  obtain ⟨reads, number, spelt⟩ := Literal.denotes_exactly
  obtain ⟨plain, negated⟩ := spelt 0xB1 body (by decide) spelling
  have none (v : Int) : ¬Literal.Denotes bare.text v := by
    rw [← reads]
    have unread : Literal.parse? bare.text = none := by decide
    simp [unread]
  exact ⟨spelling, plain, negated, none, (number bare {} .byte rfl).2 none⟩

example : Literal.parse? "0b1h".toList = some 0xB1 := by decide

end I8080
