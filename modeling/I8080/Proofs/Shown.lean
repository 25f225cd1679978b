import I8080.Proofs.Stripping

namespace I8080

open Escape

theorem Printable.shows {s : String} (h : Printable s) : Shows s s :=
  shows_of_free h.free

/-- The lines of a printed text, as they show. Each ends with a newline. -/
def shownLines (s : String) : List String :=
  ((strip s).toList.splitOn '\n').dropLast.map String.ofList

theorem splitOn_lines {lines : List String} (single : ∀ line ∈ lines, '\n' ∉ line.toList) (rest : List Char) :
    ((String.join (lines.map (· ++ "\n"))).toList ++ rest).splitOn '\n' =
      lines.map String.toList ++ rest.splitOn '\n' := by
  have newline : "\n".toList = ['\n'] := by decide
  induction lines with
  | nil => rfl
  | cons line lines ih =>
    rw [List.forall_mem_cons] at single
    rw [List.map_cons, String.join_cons, String.toList_append, String.toList_append, newline, List.append_assoc,
      List.append_assoc, List.singleton_append, List.splitOn_append_cons_self, List.splitOn_eq_singleton single.1,
      ih single.2]
    rfl

theorem shownLines_of_strip {s rest : String} {lines : List String} (single : ∀ line ∈ lines, '\n' ∉ line.toList)
    (h : strip s = String.join (lines.map (· ++ "\n")) ++ strip rest) : shownLines s = lines ++ shownLines rest := by
  rw [shownLines, h, String.toList_append, splitOn_lines single,
    List.dropLast_append_of_ne_nil (List.splitOn_ne_nil '\n' _), List.map_append, List.map_map]
  simp [shownLines, Function.comp_def]

/-- Pieces that show as a text when they are printed. -/
def Printer.Displays (p : Printer) (pieces : List String) (plain : String) : Prop :=
  Shows (p.print pieces) plain

namespace Printer

variable {p : Printer}

theorem shows_render (full : p.minimal = false) {piece plain : String} (h : Shows piece plain) :
    Shows (p.render piece) plain := by
  rw [render, full]
  split
  next minimal => cases minimal
  next =>
    split
    · exact p.painter.shows .trace piece plain h
    · exact h

theorem print_append (p : Printer) (pieces others : List String) :
    p.print (pieces ++ others) = p.print pieces ++ p.print others := by
  rw [print, List.map_append, String.join_append]
  rfl

theorem displays_nil : p.Displays [] "" :=
  fun _ => rfl

namespace Displays

variable {pieces others : List String} {plain other : String}

theorem append (h : p.Displays pieces plain) (h' : p.Displays others other) :
    p.Displays (pieces ++ others) (plain ++ other) := by
  rw [Displays, print_append]
  exact Shows.append h h'

theorem cons (full : p.minimal = false) {piece : String} (first : Shows piece plain) (rest : p.Displays others other) :
    p.Displays (piece :: others) (plain ++ other) := by
  have printed : p.print (piece :: others) = p.render piece ++ p.print others := String.join_cons
  rw [Displays, printed]
  exact (shows_render full first).append rest

theorem flatMap {α : Type} {f : α → List String} {g : α → String} {items : List α}
    (each : ∀ item ∈ items, p.Displays (f item) (g item)) :
    p.Displays (items.flatMap f) (String.join (items.map g)) := by
  induction items with
  | nil => exact displays_nil
  | cons item items ih =>
    rw [List.forall_mem_cons] at each
    rw [List.flatMap_cons, List.map_cons, String.join_cons]
    exact each.1.append (ih each.2)

theorem strip_print_append (h : p.Displays pieces plain) (others : List String) :
    strip (p.print (pieces ++ others)) = plain ++ strip (p.print others) := by
  rw [print_append, strip, String.toList_append, h, String.ofList_append, String.ofList_toList]
  rfl

theorem map_lines {α : Type} {f g : α → String} (full : p.minimal = false) {items : List α}
    (each : ∀ item ∈ items, Shows (f item) (g item ++ "\n")) :
    p.Displays (items.map f) (String.join ((items.map g).map (· ++ "\n"))) := by
  induction items with
  | nil => exact displays_nil
  | cons item items ih =>
    rw [List.forall_mem_cons] at each
    simp only [List.map_cons, String.join_cons]
    exact cons full each.1 (ih each.2)

theorem shownLines_append {lines : List String} (h : p.Displays pieces (String.join (lines.map (· ++ "\n"))))
    (printable : ∀ line ∈ lines, Printable line) (others : List String) :
    shownLines (p.print (pieces ++ others)) = lines ++ shownLines (p.print others) :=
  shownLines_of_strip (fun line mem => (printable line mem).newline_not_mem) (h.strip_print_append others)

theorem shownLines {lines : List String} (h : p.Displays pieces (String.join (lines.map (· ++ "\n"))))
    (printable : ∀ line ∈ lines, Printable line) : shownLines (p.print pieces) = lines := by
  have nothing : I8080.shownLines "" = [] := by decide
  have alone : strip (p.print pieces) = String.join (lines.map (· ++ "\n")) ++ strip "" := by
    rw [Shows.strip_eq h]
    exact String.append_empty.symm
  have shown := shownLines_of_strip (fun line mem => (printable line mem).newline_not_mem) alone
  rwa [nothing, List.append_nil] at shown

end Displays

end Printer

end I8080
