import I8080.Proofs.Printable
import I8080.Text.Escape

namespace I8080

/-- A text in which no escape sequence begins. -/
def Escape.Free (s : String) : Prop :=
  '\x1b' ∉ s.toList

instance (s : String) : Decidable (Escape.Free s) :=
  inferInstanceAs (Decidable ('\x1b' ∉ s.toList))

theorem Escape.shows_of_free {s : String} (free : Escape.Free s) : Escape.Shows s s :=
  Escape.outside_append free

theorem Escape.visible_of_free {cs : List Char} (free : '\x1b' ∉ cs) : Escape.visible cs = cs := by
  have alone := Escape.outside_append free []
  rwa [List.append_nil, Escape.visible, Escape.visible.outside, List.append_nil] at alone

theorem Escape.strip_of_free {s : String} (free : Escape.Free s) : Escape.strip s = s := by
  rw [Escape.strip, Escape.visible_of_free free, String.ofList_toList]

theorem Escape.free_append {s t : String} : Escape.Free (s ++ t) ↔ Escape.Free s ∧ Escape.Free t := by
  simp [Escape.Free]

theorem Printable.free {s : String} (h : Printable s) : Escape.Free s :=
  fun mem => absurd (h _ mem) (by decide)

theorem Escape.free_hexByte (b : UInt8) : Escape.Free (hexByte b) :=
  (printable_hexByte b).free

theorem Escape.free_hexWord (w : UInt16) : Escape.Free (hexWord w) :=
  (printable_hexWord w).free

theorem Escape.free_intercalate {separator : String} (free : Escape.Free separator) {texts : List String}
    (all : ∀ text ∈ texts, Escape.Free text) : Escape.Free (separator.intercalate texts) := by
  induction texts with
  | nil =>
    rw [String.intercalate_nil]
    decide
  | cons text texts ih =>
    rw [List.forall_mem_cons] at all
    cases texts with
    | nil => simpa using all.1
    | cons next rest =>
      rw [String.intercalate_cons_cons]
      exact Escape.free_append.mpr ⟨Escape.free_append.mpr ⟨all.1, free⟩, ih all.2⟩

theorem Escape.free_bytes (bytes : List UInt8) : ∀ text ∈ bytes.map Hex.byte, Escape.Free text := by
  rw [List.forall_mem_map]
  exact fun b _ => (printable_digits 2 b.toNat).free

theorem Escape.free_row (bytes : List UInt8) : Escape.Free (Hex.row bytes) :=
  Escape.free_intercalate (by decide) (Escape.free_bytes bytes)

theorem Escape.free_column {width : Nat} {s : String} (free : Escape.Free s) :
    Escape.Free (Column.left width s) := by
  simp [Escape.Free, Column.left, List.rightpad] at *
  exact free

theorem Loc.free_name (loc : Loc) : Escape.Free loc.name := by
  cases loc with
  | mem => decide
  | reg r => cases r <;> decide

theorem RegPair.free_name (pair : RegPair) : Escape.Free pair.name := by
  cases pair <;> decide

theorem Instr.free_toText (i : Instr) : Escape.Free i.toText := by
  cases i with
  | alu op src => cases op <;> exact Escape.free_append.mpr ⟨by decide, src.free_name⟩
  | aluImmediate op value => cases op <;> exact Escape.free_append.mpr ⟨by decide, Escape.free_hexByte value⟩
  | jmpIf condition address | callIf condition address =>
    cases condition <;> exact Escape.free_append.mpr ⟨by decide, Escape.free_hexWord address⟩
  | retIf condition => cases condition <;> decide
  | rst vector =>
    have digit : ∀ v : Digit, Escape.Free (toString v.val) := by decide
    exact Escape.free_append.mpr ⟨by decide, digit vector⟩
  | _ =>
    simp only [Instr.toText, Escape.free_append, Escape.free_hexByte, Escape.free_hexWord, Loc.free_name,
      RegPair.free_name, and_true]
    decide

end I8080
