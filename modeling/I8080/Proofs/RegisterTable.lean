import I8080.Display.Registers
import I8080.Proofs.Shown
import Mathlib.Data.Nat.Digits.Defs

namespace I8080

open Escape

/-- A byte as the numbers that the table shows: in hexadecimal, unsigned and signed. -/
def numberCells (b : UInt8) : String :=
  hexByte b ++ "  " ++ Column.right 6 (toString b.toNat) ++ "  " ++ Column.right 6 (toString b.toInt8.toInt) ++ "     "

/-- The line of a register in the table, as it shows. -/
def Machine.tableRow (m : Machine) (r : Register) : String :=
  let b := m.registers.get r
  "│" ++ (" " ++ r.title ++ "    ") ++ numberCells b ++ strip (charCell b) ++ " │"

def Machine.tablePointers (m : Machine) : String :=
  "│" ++ (" " ++ "PC" ++ "  " ++ hexWord (addressOf m.pc)) ++ "             " ++
    (" " ++ "SP" ++ "  " ++ hexWord (m.pair .sp)) ++ " │"

def tableTop : String :=
  "┌────────────────────────────────────┐"

def tableTitles : String :=
  "│        hex    uint     int    char │"

def tableBottom : String :=
  "└────────────────────────────────────┘"

/-- The lines of the table of registers, as they show. -/
def Machine.tableLines (m : Machine) : List String :=
  [tableTop, tableTitles] ++ Register.all.map m.tableRow ++ [m.tablePointers, tableBottom]

/-- The lines of a table all have one width. -/
def Aligned (lines : List String) : Prop :=
  ∀ line ∈ lines, ∀ other ∈ lines, line.length = other.length

theorem length_ofList_digits (width n : Nat) : (String.ofList (Hex.digits width n)).length = width := by
  rw [String.length_ofList, Hex.length_digits]

theorem length_hexByte (b : UInt8) : (hexByte b).length = 4 := by
  rw [hexByte, Hex.byte, String.length_append, length_ofList_digits]
  rfl

theorem length_hexWord (w : UInt16) : (hexWord w).length = 6 := by
  rw [hexWord, Hex.word, String.length_append, length_ofList_digits]
  rfl

theorem length_right {width : Nat} {s : String} (fits : s.length ≤ width) : (Column.right width s).length = width := by
  rw [Column.right, String.length_ofList, List.length_leftpad, String.length_toList, Nat.max_eq_left fits]

theorem length_toString_le {n : Int} (small : n.natAbs < 1000) : (toString n).length ≤ 4 := by
  have digits := Nat.toDigits_length 10 n.natAbs 3 (by decide) small
  rw [← String.length_toList, toList_toString]
  split
  next => omega
  next =>
    rw [List.length_cons]
    omega

theorem blank_le_caret : ∀ n < 0x20, ' ' ≤ Char.ofNat (n + 0x40) := by
  decide

theorem blank_le_ofNat : ∀ n < 0x7F, 0x20 ≤ n → ' ' ≤ Char.ofNat n := by
  decide

theorem left_singleton (c : Char) : Column.left 3 (String.singleton c) = String.singleton c ++ "  " := by
  rw [← String.toList_inj, Column.left, String.toList_ofList, String.toList_append, String.toList_singleton]
  rfl

/-- A byte shows in three columns. -/
theorem charCell_cases (b : UInt8) :
    charCell b = dim "···" ∨ Printable (charCell b) ∧ (charCell b).length = 3 := by
  unfold charCell
  split
  next control =>
    have small : b.toNat < 0x20 := UInt8.lt_iff_toNat_lt.mp control
    refine .inr ⟨?_, ?_⟩
    · rw [printable_append, printable_append]
      exact ⟨⟨by decide, printable_singleton (blank_le_caret b.toNat small)⟩, by decide⟩
    · rw [String.length_append, String.length_append, String.length_singleton]
      rfl
  next above =>
    split
    next => exact .inr ⟨by decide, by decide⟩
    next =>
      split
      next below =>
        have low : 0x20 ≤ b.toNat := Nat.le_of_not_lt fun small => above (UInt8.lt_iff_toNat_lt.mpr small)
        have high : b.toNat < 0x7F := UInt8.lt_iff_toNat_lt.mp below
        rw [left_singleton, printable_append, String.length_append, String.length_singleton]
        exact .inr ⟨⟨printable_singleton (blank_le_ofNat b.toNat high low), by decide⟩, rfl⟩
      next =>
        split
        next => exact .inr ⟨by decide, by decide⟩
        next => exact .inl rfl

/-- What a byte shows as stands alone in its columns. -/
theorem charCell_shows (b : UInt8) :
    Shows (charCell b) (strip (charCell b)) ∧ Printable (strip (charCell b)) ∧ (strip (charCell b)).length = 3 := by
  rcases charCell_cases b with dots | ⟨printable, three⟩
  · have shows : Shows (charCell b) "···" := dots ▸ (Printable.shows (by decide)).dim
    rw [shows.strip_eq]
    exact ⟨shows, by decide, by decide⟩
  · rw [strip_of_free printable.free]
    exact ⟨printable.shows, printable, three⟩

theorem Register.title_cases (r : Register) : Printable r.title ∧ r.title.length = 1 := by
  cases r <;> exact ⟨by decide +kernel, by decide +kernel⟩

theorem length_unsigned_le (b : UInt8) : (toString b.toNat).length ≤ 6 := by
  have bound := b.toNat_lt
  have same : toString b.toNat = toString (b.toNat : Int) := rfl
  have digits := length_toString_le (n := (b.toNat : Int)) (by omega)
  rw [same]
  omega

theorem length_signed_le (b : UInt8) : (toString b.toInt8.toInt).length ≤ 6 := by
  have low := b.toInt8.le_toInt
  have high := b.toInt8.toInt_lt
  have digits := length_toString_le (n := b.toInt8.toInt) (by omega)
  omega

theorem printable_numberCells (b : UInt8) : Printable (numberCells b) := by
  simp only [numberCells, printable_append, printable_hexByte, printable_right (printable_natToString _),
    printable_right (printable_toString _), and_true, true_and]
  decide

theorem length_numberCells (b : UInt8) : (numberCells b).length = 25 := by
  simp only [numberCells, String.length_append, length_hexByte, length_right (length_unsigned_le b),
    length_right (length_signed_le b)]
  rfl

theorem Machine.printable_tableRow (m : Machine) (r : Register) : Printable (m.tableRow r) := by
  obtain ⟨-, cell, -⟩ := charCell_shows (m.registers.get r)
  simp only [Machine.tableRow, printable_append, printable_numberCells, r.title_cases.1, cell, and_true]
  decide

theorem Machine.length_tableRow (m : Machine) (r : Register) : (m.tableRow r).length = 37 := by
  obtain ⟨-, -, cell⟩ := charCell_shows (m.registers.get r)
  simp only [Machine.tableRow, String.length_append, length_numberCells, r.title_cases.2, cell]
  rfl

theorem Printer.displays_boxRow {p : Printer} (full : p.minimal = false) {inside : List String} {plain : String}
    (h : p.Displays inside plain) : p.Displays (boxRow inside) ("│" ++ plain ++ " │" ++ "\n") := by
  have side : Shows (dim "│") "│" := (Printable.shows (by decide)).dim
  have last : Shows (" " ++ dim "│" ++ "\n") (" " ++ "│" ++ "\n") :=
    ((Printable.shows (by decide)).append side).append (shows_of_free (by decide))
  have first := Printer.Displays.cons full side Printer.displays_nil
  have shown := (first.append h).append (Printer.Displays.cons full last Printer.displays_nil)
  have bar : " │" ++ "\n" = " " ++ "│" ++ "\n" := by decide
  rwa [String.append_empty, String.append_empty, ← bar, ← String.append_assoc] at shown

theorem Machine.displays_row {p : Printer} (full : p.minimal = false) (m : Machine) (r : Register) :
    p.Displays (boxRow ((" " ++ bold r.title ++ "    ") :: bytePieces (m.registers.get r))) (m.tableRow r ++ "\n") := by
  have gap : Shows " " " " := Printable.shows (by decide)
  have title : Shows (" " ++ bold r.title ++ "    ") (" " ++ r.title ++ "    ") :=
    (gap.append r.title_cases.1.shows.bold).append (Printable.shows (by decide))
  have numbers := (printable_numberCells (m.registers.get r)).shows
  obtain ⟨cell, -, -⟩ := charCell_shows (m.registers.get r)
  have inside := Printer.Displays.cons full title
    (Printer.Displays.cons full numbers (Printer.Displays.cons full cell Printer.displays_nil))
  have shown := Printer.displays_boxRow full inside
  rwa [String.append_empty, ← String.append_assoc, ← String.append_assoc] at shown

theorem Machine.displays_pointers {p : Printer} (full : p.minimal = false) (m : Machine) :
    p.Displays (boxRow [addressCell "PC" (addressOf m.pc), "             ", addressCell "SP" (m.pair .sp)])
      (m.tablePointers ++ "\n") := by
  have cell (title : String) (plain : Printable title) (address : UInt16) :
      Shows (addressCell title address) (" " ++ title ++ "  " ++ hexWord address) :=
    (((Printable.shows (by decide)).append plain.shows.bold).append (Printable.shows (by decide))).append
      (printable_hexWord address).shows
  have gap : Shows "             " "             " := Printable.shows (by decide)
  have inside := Printer.Displays.cons full (cell "PC" (by decide) (addressOf m.pc))
    (Printer.Displays.cons full gap
      (Printer.Displays.cons full (cell "SP" (by decide) (m.pair .sp)) Printer.displays_nil))
  have shown := Printer.displays_boxRow full inside
  rwa [String.append_empty, ← String.append_assoc, ← String.append_assoc] at shown

/-- The table shows as its lines, also where the pieces are coloured one by one. -/
theorem Machine.displays_registerBox {p : Printer} (full : p.minimal = false) (m : Machine) :
    p.Displays m.registerBox (String.join (m.tableLines.map (· ++ "\n"))) := by
  have border (line : String) (plain : Printable line) : Shows (dim line ++ "\n") (line ++ "\n") :=
    plain.shows.dim.append (shows_of_free (by decide))
  have header : Shows "\x1b[2m│        \x1b[3mhex    uint     int    char\x1b[0m\x1b[2m │\x1b[0m\n"
      (tableTitles ++ "\n") := by
    intro rest
    rfl
  have top := Printer.Displays.cons full (border tableTop (by decide +kernel))
    (Printer.Displays.cons full header Printer.displays_nil)
  have bottom := Printer.Displays.cons full (border tableBottom (by decide +kernel))
    Printer.displays_nil
  have rows : p.Displays (Register.all.flatMap _) _ := .flatMap fun r _ => m.displays_row full r
  have shown := ((top.append rows).append (m.displays_pointers full)).append bottom
  have lines : String.join (m.tableLines.map (· ++ "\n")) =
      (tableTop ++ "\n" ++ (tableTitles ++ "\n" ++ "")) ++
        String.join (Register.all.map fun r => m.tableRow r ++ "\n") ++
        (m.tablePointers ++ "\n" ++ (tableBottom ++ "\n" ++ "")) := by
    simp only [Machine.tableLines, List.map_append, List.map_cons, List.map_nil, List.map_map, String.join_append,
      String.join_cons, String.join_nil, Function.comp_def]
  rw [lines, ← String.append_assoc]
  exact shown

theorem Machine.printable_tableLines (m : Machine) : ∀ line ∈ m.tableLines, Printable line := by
  have pointers : Printable m.tablePointers := by
    simp only [Machine.tablePointers, printable_append, printable_hexWord]
    decide
  rw [Machine.tableLines, List.forall_mem_append, List.forall_mem_append, List.forall_mem_map]
  refine ⟨⟨by decide +kernel, fun r _ => m.printable_tableRow r⟩, ?_⟩
  rw [List.forall_mem_cons, List.forall_mem_singleton]
  exact ⟨pointers, by decide +kernel⟩

theorem Machine.length_tableLines (m : Machine) :
    m.tableLines.map String.length = [38, 38] ++ List.replicate 7 37 ++ [38, 38] := by
  have pointers : m.tablePointers.length = 38 := by
    simp only [Machine.tablePointers, String.length_append, length_hexWord]
    rfl
  have rows : Register.all.map (String.length ∘ m.tableRow) = Register.all.map fun _ => 37 :=
    List.map_congr_left fun r _ => m.length_tableRow r
  have first : [tableTop, tableTitles].map String.length = [38, 38] := by
    decide +kernel
  have last : tableBottom.length = 38 := by
    decide +kernel
  rw [Machine.tableLines, List.map_append, List.map_append, List.map_map, rows, first, List.map_cons, pointers,
    List.map_singleton, last]
  rfl

theorem Machine.not_aligned_tableLines (m : Machine) : ¬Aligned m.tableLines := by
  intro aligned
  have same : tableTop.length = (m.tableRow .a).length :=
    aligned tableTop (by simp [Machine.tableLines]) (m.tableRow .a) (by simp [Machine.tableLines, Register.all])
  rw [m.length_tableRow] at same
  exact absurd same (by decide +kernel)

theorem Machine.shownLines_registerBox {p : Printer} (full : p.minimal = false) (m : Machine) (others : List String) :
    shownLines (p.print (m.registerBox ++ others)) = m.tableLines ++ shownLines (p.print others) :=
  (m.displays_registerBox full).shownLines_append m.printable_tableLines others

/-- The table is never aligned. The lines of the registers are one column narrower than the border, the titles and the
pointers. -/
theorem Machine.registerTable_misaligned (m : Machine) (channel : Channel) (painter : Painter) :
    let p : Printer := { channel, painter }
    shownLines (p.print (p.registerPieces m)) = m.tableLines ++ shownLines (p.print (p.flagPieces m.flags)) ∧
      m.tableLines.map String.length = [38, 38] ++ List.replicate 7 37 ++ [38, 38] ∧ ¬Aligned m.tableLines := by
  intro p
  exact ⟨m.shownLines_registerBox rfl (p.flagPieces m.flags), m.length_tableLines, m.not_aligned_tableLines⟩

/-- The table of the machine at its start, all registers zero. -/
theorem Machine.initial_registerTable_misaligned :
    ¬Aligned (shownLines (({} : Printer).print ({} : Machine).registerBox)) := by
  have shown := (({} : Machine).displays_registerBox (p := {}) rfl).shownLines (Machine.printable_tableLines {})
  rw [shown]
  exact ({} : Machine).not_aligned_tableLines

end I8080
