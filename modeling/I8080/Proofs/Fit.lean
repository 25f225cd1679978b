import I8080.Proofs.Resolution

namespace I8080

/-- The names that an operand of a kind may have, in either case. -/
def OperandKind.names : OperandKind → List String
  | .register => ["b", "c", "d", "e", "h", "l", "m", "a"]
  | .pair .any => ["b", "d", "h", "sp"]
  | .pair .stack => ["b", "d", "h", "psw"]
  | .pair .index => ["b", "d"]
  | .byte | .word | .address | .vector => []

/-- The numbers that an operand of a kind may be. -/
def OperandKind.InRange (kind : OperandKind) (n : Int) : Prop :=
  match kind with
  | .byte => -128 ≤ n ∧ n ≤ 255
  | .word | .address => -32768 ≤ n ∧ n ≤ 65535
  | .vector => 0 ≤ n ∧ n ≤ 7
  | .register | .pair _ => False

def OperandKind.Fits (kind : OperandKind) : Operand → Prop
  | .name text => text.toLower ∈ kind.names
  | .value n => kind.InRange n

instance (kind : OperandKind) (n : Int) : Decidable (kind.InRange n) := by
  cases kind <;> unfold OperandKind.InRange <;> infer_instance

instance (kind : OperandKind) (operand : Operand) : Decidable (kind.Fits operand) := by
  cases operand <;> unfold OperandKind.Fits <;> infer_instance

/-- The position of the first operand that does not fit its kind. -/
def Mnemonic.misfit? (m : Mnemonic) (operands : List Operand) : Option Nat :=
  (m.kinds.zip operands).findIdx? fun pair => !decide (pair.1.Fits pair.2)

theorem Loc.ofName?_eq_none_iff {text : String} :
    Loc.ofName? text = none ↔ text.toLower ∉ OperandKind.register.names := by
  have names : (Loc.all.map Loc.name).Perm OperandKind.register.names := by decide
  rw [Loc.ofName?, List.find?_eq_none, ← names.mem_iff]
  simp

theorem RegPair.name_injective {p q : RegPair} (h : p.name = q.name) : p = q := by
  cases p <;> cases q <;> first | rfl | exact absurd h (by decide)

theorem RegPair.ofName?_eq_some {text : String} {p : RegPair} (h : RegPair.ofName? text = some p) :
    p.name = text.toLower := by
  simpa using List.find?_some h

theorem RegPair.ofName?_filter_eq_none_iff {text : String} {allowed : PairClass} :
    (RegPair.ofName? text).filter allowed.allows = none ↔ text.toLower ∉ (OperandKind.pair allowed).names := by
  have names : (OperandKind.pair allowed).names = (RegPair.all.filter allowed.allows).map RegPair.name := by
    cases allowed <;> rfl
  have all : ∀ p : RegPair, p ∈ RegPair.all := by
    intro p
    cases p <;> decide
  rw [names, List.mem_map]
  cases found : RegPair.ofName? text with
  | none =>
    have other := List.find?_eq_none.mp found
    refine iff_of_true rfl ?_
    rintro ⟨p, -, same⟩
    exact other p (all p) (by simp [same])
  | some p =>
    have named := RegPair.ofName?_eq_some found
    rw [Option.filter_eq_none_iff]
    constructor
    · rintro refused ⟨q, allows, same⟩
      cases RegPair.name_injective (named.trans same.symm)
      exact refused p rfl (List.mem_filter.mp allows).2
    · rintro none q same allows
      cases same
      exact none ⟨p, List.mem_filter.mpr ⟨all p, allows⟩, named⟩

theorem readNumber_eq_ok_iff {n low high k : Int} {bits : Nat} :
    readNumber n low high bits = .ok k ↔ n = k ∧ low ≤ n ∧ n ≤ high := by
  unfold readNumber
  split
  next fits => rw [Except.ok.injEq, and_iff_left fits]
  next unfit => exact iff_of_false nofun fun both => unfit both.2

theorem OperandKind.read_eq_ok_iff {mnemonic : String} {kind : OperandKind} {operand : Operand} :
    (∃ value, kind.read mnemonic operand = .ok value) ↔ kind.Fits operand := by
  cases operand with
  | name text =>
    cases kind with
    | register =>
      rw [OperandKind.read, OperandKind.Fits, ← not_iff_not, ← Loc.ofName?_eq_none_iff]
      cases Loc.ofName? text <;> simp
    | pair allowed =>
      rw [OperandKind.read, OperandKind.Fits, ← not_iff_not, ← RegPair.ofName?_filter_eq_none_iff]
      cases (RegPair.ofName? text).filter allowed.allows <;> simp
    | byte | word | address | vector => simp [OperandKind.read, OperandKind.Fits, OperandKind.names]
  | value n =>
    cases kind with
    | register | pair allowed => simp [OperandKind.read, OperandKind.Fits, OperandKind.InRange]
    | byte | word | address | vector =>
      simp only [OperandKind.read, exists_map_eq_ok_iff, readNumber_eq_ok_iff, exists_eq_left']
      rfl

end I8080
