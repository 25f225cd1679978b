import I8080.Display.Stack
import I8080.Proofs.RegisterTable

namespace I8080

open Escape

/-- The lines for the registers and flags of a machine in minimal printing. -/
def Machine.minimalLines (m : Machine) : List String :=
  let line (name value : String) := name ++ " " ++ value
  let number (name : String) (b : UInt8) := line name (toString b.toNat)
  let bit (set : Bool) := if set then "1" else "0"
  [number "A" m.registers.a, number "B" m.registers.b, number "C" m.registers.c, number "D" m.registers.d,
    number "E" m.registers.e, number "H" m.registers.h, number "L" m.registers.l,
    line "PC" (hexWord (addressOf m.pc)), line "SP" (hexWord (addressOf m.sp)),
    "FLAGS s=" ++ bit m.flags.sign ++ " z=" ++ bit m.flags.zero ++ " ac=" ++ bit m.flags.aux ++
      " p=" ++ bit m.flags.parity ++ " c=" ++ bit m.flags.carry]

/-- The row of flags below the table. A flag that is set is painted, and one that is not is dim. -/
def Flags.row (f : Flags) (painter : Painter) : String :=
  let title := "\x1b[1m" ++ "flags" ++ "\x1b[0m"
  let cell (name : String) (set : Bool) :=
    " " ++ if set then painter.paint .flag name else "\x1b[2m" ++ name ++ "\x1b[0m"
  " " ++ title ++ " " ++ cell "S" f.sign ++ cell "Z" f.zero ++ cell "AC" f.aux ++ cell "P" f.parity ++
    cell "C" f.carry ++ "\n"

/-- The lines for the registers and flags of a machine, as they show. -/
def Machine.valueLines (m : Machine) (minimal : Bool) : List String :=
  if minimal then m.minimalLines else m.tableLines ++ [" flags  S Z AC P C"]

/-- The offsets of the stack, from the last byte pushed to the end of the window. -/
def Machine.stackOffsets (m : Machine) : List Nat :=
  List.range' m.sp (windowSize - m.sp)

/-- The lines for the stack of a machine, as they show. -/
def Machine.stackLines (m : Machine) (minimal : Bool) : List String :=
  let cell (offset : Nat) := "   " ++ hexWord (addressOf offset) ++ "  " ++ hexByte (m.memory.wrapped offset)
  if minimal then
    [" ".intercalate ("STACK" :: m.stackOffsets.map fun offset => Hex.byte (m.memory.wrapped offset))]
  else if m.sp.val = windowSize then [" stack  empty"]
  else " stack" :: m.stackOffsets.map cell

/-- Texts that show as lines. In minimal printing there is a text for each line, as plain as it. -/
def ShowLines (minimal : Bool) (texts lines : List String) : Prop :=
  if minimal then texts = lines.map (· ++ "\n") else shownLines (String.join texts) = lines

/-- Texts that show a machine: its registers and flags in `values`, its stack in `stack`. -/
structure Machine.PrintedAs (m : Machine) (painter : Painter) (minimal : Bool) (values stack : List String) :
    Prop where
  registers : ShowLines minimal values (m.valueLines minimal)
  flags : minimal = false → ∃ table, String.join values = table ++ m.flags.row painter
  bytes : ShowLines minimal stack (m.stackLines minimal)

theorem Flags.minimalLine_eq (f : Flags) :
    f.minimalLine = "FLAGS s=" ++ (if f.sign then "1" else "0") ++ " z=" ++ (if f.zero then "1" else "0") ++
      " ac=" ++ (if f.aux then "1" else "0") ++ " p=" ++ (if f.parity then "1" else "0") ++
      " c=" ++ (if f.carry then "1" else "0") ++ "\n" := by
  have names : ["S", "Z", "AC", "P", "C"].map String.toLower = ["s", "z", "ac", "p", "c"] := by decide +kernel
  simp only [List.map_cons, List.map_nil, List.cons.injEq] at names
  obtain ⟨s, z, ac, p, c, -⟩ := names
  obtain ⟨sign, zero, aux, parity, carry⟩ := f
  cases sign <;> cases zero <;> cases aux <;> cases parity <;> cases carry <;>
    simp [Flags.minimalLine, Flags.named, s, z, ac, p, c]

theorem Flags.free_minimalLine (f : Flags) : Free f.minimalLine := by
  have bit (set : Bool) : Free (if set then "1" else "0") := by cases set <;> decide
  simp only [f.minimalLine_eq, free_append, bit, and_true]
  decide

theorem Register.titles : Register.all.map Register.title = ["A", "B", "C", "D", "E", "H", "L"] := by
  decide +kernel

theorem Machine.stackCells_eq (m : Machine) :
    m.stackCells = m.stackOffsets.map fun offset => (addressOf offset, m.memory.wrapped offset) := by
  refine List.ext_getElem (by simp [m.length_stackCells, Machine.stackOffsets]) fun k inside _ => ?_
  rw [m.getElem_stackCells k inside]
  simp [Machine.stackOffsets]

theorem Machine.stack_eq (m : Machine) : m.stack = m.stackOffsets.map m.memory.wrapped := by
  have cells : m.stackCells.map Prod.snd = m.stack := by
    simp [Machine.stackCells, Function.comp_def, List.zipIdx_map_fst]
  rw [← cells, m.stackCells_eq, List.map_map]
  rfl

namespace Printer

variable {p : Printer}

theorem map_render_of_free (minimal : p.minimal = true) {pieces : List String}
    (free : ∀ piece ∈ pieces, Free piece) : pieces.map p.render = pieces := by
  refine (List.map_congr_left fun piece mem => ?_).trans (List.map_id pieces)
  rw [render, if_pos minimal, strip_of_free (free piece mem), id]

theorem map_render_of_full (full : p.minimal = false) (results : p.channel = .results) (pieces : List String) :
    pieces.map p.render = pieces := by
  refine (List.map_congr_left fun piece _ => ?_).trans (List.map_id pieces)
  simp [render, full, results]

end Printer

theorem Register.free_title (r : Register) : Free r.title :=
  r.title_cases.1.free

theorem Machine.free_registerLines (m : Machine) : ∀ piece ∈ m.registerLines, Free piece := by
  have newline : Free "\n" := by decide
  have named (name : String) (plain : Free name) (address : UInt16) : Free (name ++ hexWord address ++ "\n") :=
    free_append.mpr ⟨free_append.mpr ⟨plain, free_hexWord address⟩, newline⟩
  rw [Machine.registerLines, List.forall_mem_append, List.forall_mem_map]
  refine ⟨fun r _ => ?_, ?_⟩
  · simp only [free_append]
    exact ⟨⟨⟨r.free_title, by decide⟩, (printable_natToString _).free⟩, newline⟩
  · rw [List.forall_mem_cons, List.forall_mem_singleton]
    exact ⟨named "PC " (by decide) _, named "SP " (by decide) _⟩

theorem Machine.registerLines_eq (m : Machine) :
    m.registerLines ++ [m.flags.minimalLine] = m.minimalLines.map (· ++ "\n") := by
  have titles := Register.titles
  simp only [Register.all, List.map_cons, List.map_nil, List.cons.injEq] at titles
  obtain ⟨a, b, c, d, e, h, l, -⟩ := titles
  have sp : m.pair .sp = addressOf m.sp := rfl
  simp [Machine.registerLines, Machine.minimalLines, Register.all, Registers.get, a, b, c, d, e, h, l, sp,
    m.flags.minimalLine_eq]

theorem Machine.printed_minimal (m : Machine) (painter : Painter) :
    let p : Printer := { minimal := true, painter }
    m.PrintedAs painter true ((p.registerPieces m).map p.render) ((p.stackPieces m).map p.render) := by
  intro p
  have pieces : p.registerPieces m = m.registerLines ++ [m.flags.minimalLine] := rfl
  have free : ∀ piece ∈ m.registerLines ++ [m.flags.minimalLine], Free piece := by
    rw [List.forall_mem_append, List.forall_mem_singleton]
    exact ⟨m.free_registerLines, m.flags.free_minimalLine⟩
  have stack : Free m.minimalStack := by
    refine free_append.mpr ⟨free_intercalate (by decide) ?_, by decide⟩
    rw [List.forall_mem_cons]
    exact ⟨by decide, free_bytes m.stack⟩
  constructor
  case registers =>
    rw [pieces, Printer.map_render_of_free rfl free, m.registerLines_eq]
    rfl
  case flags => exact nofun
  case bytes =>
    have line : [m.minimalStack] = (m.stackLines true).map (· ++ "\n") := by
      simp [Machine.minimalStack, Machine.stackLines, m.stack_eq, Function.comp_def]
    have whole : p.stackPieces m = [m.minimalStack] := rfl
    rw [whole, Printer.map_render_of_free rfl (List.forall_mem_singleton.mpr stack), line]
    rfl

theorem Machine.displays_stackBox {p : Printer} (full : p.minimal = false) (m : Machine) :
    p.Displays m.stackBox (String.join ((m.stackLines false).map (· ++ "\n"))) := by
  have newline : Shows "\n" "\n" := shows_of_free (by decide)
  have title : Shows (" " ++ bold "stack") (" " ++ "stack") :=
    (shows_of_free (by decide)).append (shows_of_free (by decide)).bold
  have gap : Shows "  " "  " := shows_of_free (by decide)
  by_cases empty : m.sp.val = windowSize
  · have box : m.stackBox = [()].map fun _ => " " ++ bold "stack" ++ "  " ++ dim "empty" ++ "\n" := by
      simp [Machine.stackBox, Machine.stack, empty]
    have lines : m.stackLines false = [()].map fun _ => " stack  empty" := by simp [Machine.stackLines, empty]
    have word : Shows (dim "empty") "empty" := (shows_of_free (by decide)).dim
    rw [box, lines]
    exact .map_lines full fun _ _ => ((title.append gap).append word).append newline
  · have some : m.stackBox = (" " ++ bold "stack" ++ "\n") :: m.stackOffsets.map fun offset =>
        stackCell (addressOf offset) (m.memory.wrapped offset) := by
      have bytes : m.stack.isEmpty = false := by
        simp only [Machine.stack, List.isEmpty_eq_false_iff, ne_eq, List.drop_eq_nil_iff, Vector.length_toList]
        omega
      simp [Machine.stackBox, bytes, m.stackCells_eq, Function.comp_def]
    have lines : m.stackLines false = " stack" :: m.stackOffsets.map fun offset =>
        "   " ++ hexWord (addressOf offset) ++ "  " ++ hexByte (m.memory.wrapped offset) := by
      simp [Machine.stackLines, empty]
    have cell (offset : Nat) : Shows (stackCell (addressOf offset) (m.memory.wrapped offset))
        ("   " ++ hexWord (addressOf offset) ++ "  " ++ hexByte (m.memory.wrapped offset) ++ "\n") :=
      ((((shows_of_free (by decide)).append (printable_hexWord _).shows.dim).append gap).append
        (printable_hexByte _).shows).append newline
    rw [some, lines, List.map_cons, String.join_cons]
    exact .cons full (title.append newline) (.map_lines full fun offset _ => cell offset)

theorem Machine.printable_stackLines (m : Machine) : ∀ line ∈ m.stackLines false, Printable line := by
  unfold Machine.stackLines
  rw [if_neg Bool.false_ne_true]
  split
  next =>
    rw [List.forall_mem_singleton]
    decide
  next =>
    rw [List.forall_mem_cons, List.forall_mem_map]
    refine ⟨by decide, fun offset _ => ?_⟩
    simp only [printable_append, printable_hexWord, printable_hexByte, and_true]
    decide

theorem Flags.displays_row {p : Printer} (full : p.minimal = false) (f : Flags) :
    p.Displays (p.flagPieces f) (String.join ([" flags  S Z AC P C"].map (· ++ "\n"))) := by
  have cell (name : String) (plain : Free name) (set : Bool) :
      Shows (flagCell p.painter name set) (" " ++ name) := by
    have gap : Shows " " " " := shows_of_free (by decide)
    refine gap.append ?_
    cases set with
    | true => exact p.painter.shows .flag name name (shows_of_free plain)
    | false => exact (shows_of_free plain).dim
  have title : Shows (" " ++ bold "flags" ++ " ") (" " ++ "flags" ++ " ") :=
    ((shows_of_free (by decide)).append (shows_of_free (by decide)).bold).append (shows_of_free (by decide))
  have newline : Shows "\n" "\n" := shows_of_free (by decide)
  have pieces : p.flagPieces f = (" " ++ bold "flags" ++ " ") ::
      (f.named.flatMap fun flag => [flagCell p.painter flag.1 flag.2]) ++ ["\n"] := by
    simp [Printer.flagPieces, full, Flags.named]
  have names : f.named.map Prod.fst = ["S", "Z", "AC", "P", "C"] := rfl
  have plain : ∀ flag ∈ f.named, Free flag.1 := by
    rw [← List.forall_mem_map, names]
    decide
  have cells : p.Displays (f.named.flatMap fun flag => [flagCell p.painter flag.1 flag.2])
      (String.join (f.named.map fun flag => " " ++ flag.1 ++ "")) :=
    .flatMap fun flag mem => .cons full (cell flag.1 (plain flag mem) flag.2) Printer.displays_nil
  have shown := (Printer.Displays.cons full title cells).append (.cons full newline Printer.displays_nil)
  rw [pieces]
  exact shown

theorem Machine.printed_full (m : Machine) (painter : Painter) :
    let p : Printer := { painter }
    m.PrintedAs painter false ((p.registerPieces m).map p.render) ((p.stackPieces m).map p.render) := by
  intro p
  have values : p.registerPieces m = m.registerBox ++ p.flagPieces m.flags := rfl
  have stack : p.stackPieces m = m.stackBox := rfl
  constructor
  case registers =>
    have box := m.shownLines_registerBox (p := p) rfl (p.flagPieces m.flags)
    have row := (m.flags.displays_row (p := p) rfl).shownLines (by decide)
    exact box.trans (congrArg (m.tableLines ++ ·) row)
  case flags =>
    intro _
    refine ⟨String.join m.registerBox, ?_⟩
    rw [values, Printer.map_render_of_full rfl rfl, String.join_append]
    simp [Printer.flagPieces, Flags.named, flagCell, dim, bold, Flags.row, p, String.append_assoc]
  case bytes => exact (m.displays_stackBox (p := p) rfl).shownLines m.printable_stackLines

/-- What is printed of a machine shows its registers, flags and stack. -/
theorem Machine.printedAs (m : Machine) (painter : Painter) (minimal : Bool) :
    let p : Printer := { minimal, painter }
    m.PrintedAs painter minimal ((p.registerPieces m).map p.render) ((p.stackPieces m).map p.render) := by
  cases minimal with
  | true => exact m.printed_minimal painter
  | false => exact m.printed_full painter

end I8080
