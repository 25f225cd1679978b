import I8080.Display.Listing
import I8080.Display.Printer
import I8080.Proofs.Cursor
import I8080.Proofs.Decimal
import I8080.Proofs.Escape
import I8080.Proofs.LabelAddress
import I8080.Proofs.Retokenize

namespace I8080

/-- A text cut into escape sequences and the texts before, between and after them. A sequence goes from `ESC` through the
next `m`; the last text may be followed by an `ESC` that no `m` comes after. -/
structure Escape.Cut where
  head : List Char
  sequences : List (List Char × List Char)
  unclosed : Option (List Char)
  head_free : '\x1b' ∉ head
  sequences_free : ∀ cut ∈ sequences, 'm' ∉ cut.1 ∧ '\x1b' ∉ cut.2
  unclosed_free : ∀ rest ∈ unclosed, 'm' ∉ rest

namespace Escape

namespace Cut

def text (cut : Cut) : List Char :=
  cut.head ++ cut.sequences.flatMap (fun (inside, after) => '\x1b' :: inside ++ 'm' :: after) ++
    cut.unclosed.elim [] ('\x1b' :: ·)

def plain (cut : Cut) : List Char :=
  cut.head ++ cut.sequences.flatMap Prod.snd

end Cut

theorem visible_unclosed {rest : List Char} (unended : 'm' ∉ rest) : visible ('\x1b' :: rest) = [] := by
  have skipped : visible ('\x1b' :: rest) = visible.inside (rest ++ []) := by
    rw [List.append_nil]
    rfl
  rw [skipped, inside_append unended]
  rfl

theorem visible_text (cut : Cut) : visible cut.text = cut.plain := by
  obtain ⟨head, sequences, unclosed, head_free, sequences_free, unclosed_free⟩ := cut
  dsimp only [Cut.text, Cut.plain]
  rw [List.append_assoc, outside_append head_free]
  congr 1
  induction sequences with
  | nil =>
    cases unclosed with
    | none => rfl
    | some rest => exact visible_unclosed (unclosed_free rest rfl)
  | cons cut sequences ih =>
    obtain ⟨inside, after⟩ := cut
    obtain ⟨unended, free⟩ := sequences_free _ List.mem_cons_self
    have later := ih fun cut mem => sequences_free cut (List.mem_cons_of_mem _ mem)
    have regroup : ∀ middle tail : List Char, ('\x1b' :: inside ++ 'm' :: after) ++ middle ++ tail =
        '\x1b' :: inside ++ 'm' :: (after ++ (middle ++ tail)) := by simp
    rw [List.flatMap_cons, List.flatMap_cons, regroup, visible_sequence unended, outside_append free, later]

/-- Every text is cut, and so is what follows an `ESC` and some characters of its sequence. -/
theorem exists_cut (cs : List Char) :
    (∃ cut : Cut, cut.text = cs) ∧
      ∀ inside, 'm' ∉ inside → ∃ cut : Cut, cut.head = [] ∧ cut.text = '\x1b' :: inside ++ cs := by
  induction cs with
  | nil =>
    refine ⟨⟨⟨[], [], none, by simp, by simp, by simp⟩, rfl⟩, fun inside unended => ?_⟩
    exact ⟨⟨[], [], some inside, by simp, by simp, by simpa using unended⟩, rfl, by simp [Cut.text]⟩
  | cons c cs ih =>
    obtain ⟨⟨cut, rest⟩, unfinished⟩ := ih
    constructor
    · by_cases escape : c = '\x1b'
      · obtain ⟨cut, -, text⟩ := unfinished [] (by simp)
        exact ⟨cut, escape ▸ text⟩
      · refine ⟨{ cut with head := c :: cut.head, head_free := ?_ }, ?_⟩
        · rw [List.mem_cons, not_or]
          exact ⟨Ne.symm escape, cut.head_free⟩
        · rw [← rest]
          rfl
    · intro inside unended
      by_cases last : c = 'm'
      · refine ⟨⟨[], (inside, cut.head) :: cut.sequences, cut.unclosed, by simp, ?_, cut.unclosed_free⟩, rfl, ?_⟩
        · rw [List.forall_mem_cons]
          exact ⟨⟨unended, cut.head_free⟩, cut.sequences_free⟩
        · rw [← rest, last]
          simp [Cut.text]
      · obtain ⟨cut, empty, text⟩ := unfinished (inside ++ [c]) (by simp [unended, Ne.symm last])
        exact ⟨cut, empty, by simpa using text⟩

theorem strip_cut (cut : Cut) : strip (String.ofList cut.text) = String.ofList cut.plain := by
  rw [strip, String.toList_ofList, visible_text]

theorem exists_cut_ofList (s : String) : ∃ cut : Cut, String.ofList cut.text = s := by
  obtain ⟨cut, text⟩ := (exists_cut s.toList).1
  exact ⟨cut, by rw [text, String.ofList_toList]⟩

theorem Cut.plain_free (cut : Cut) : '\x1b' ∉ cut.plain := by
  rw [Cut.plain, List.mem_append, not_or]
  refine ⟨cut.head_free, fun mem => ?_⟩
  obtain ⟨piece, here, inside⟩ := List.mem_flatMap.mp mem
  exact (cut.sequences_free piece here).2 inside

theorem free_strip (s : String) : Free (strip s) := by
  obtain ⟨cut, rfl⟩ := exists_cut_ofList s
  rw [strip_cut, Free, String.toList_ofList]
  exact cut.plain_free

/-- A text that ends outside of every escape sequence. -/
def Closed (s : String) : Prop :=
  ∃ plain, Shows s plain

theorem closed_of_free {s : String} (free : Free s) : Closed s :=
  ⟨s, shows_of_free free⟩

theorem Closed.append {s t : String} : Closed s → Closed t → Closed (s ++ t)
  | ⟨_, first⟩, ⟨_, second⟩ => ⟨_, first.append second⟩

theorem Closed.dim {s : String} : Closed s → Closed (I8080.dim s)
  | ⟨_, shows⟩ => ⟨_, shows.dim⟩

theorem Closed.bold {s : String} : Closed s → Closed (I8080.bold s)
  | ⟨_, shows⟩ => ⟨_, shows.bold⟩

/-- Closed texts are stripped one by one or all at once. -/
theorem strip_join {pieces : List String} (closed : ∀ piece ∈ pieces, Closed piece) :
    String.join (pieces.map strip) = strip (String.join pieces) := by
  induction pieces with
  | nil => rfl
  | cons piece pieces ih =>
    rw [List.forall_mem_cons] at closed
    rw [List.map_cons, String.join_cons, String.join_cons, ih closed.2]
    obtain ⟨⟨plain, shows⟩, -⟩ := closed
    have cut := shows (String.join pieces).toList
    rw [shows.strip_eq, strip, strip, String.toList_append, cut, String.ofList_append, String.ofList_toList]

end Escape

open Escape

theorem Token.free_name {source : List Char} {t : Token} (mem : t ∈ tokenize source) (ident : t.kind = .ident) :
    Free t.name := by
  intro escape
  rw [Token.name, String.toList_ofList] at escape
  exact absurd ((isWord_of_tokenizeFrom mem ident).isIdentRest_of_mem _ escape) (by decide)

theorem free_names {source : List Char} {line : SourceLine} (mem : line ∈ sourceLines source) :
    ∀ name ∈ line.names, Free name := by
  intro name named
  obtain ⟨t, label, rfl⟩ := List.mem_map.mp named
  rw [Option.mem_toList] at label
  obtain ⟨colon, rest, -, ident, -⟩ := SourceLine.label?_eq_some label
  exact Token.free_name (tokens_of_sourceLines mem (SourceLine.label?_mem label)) ident

theorem free_labels (source : String) : ∀ entry ∈ (assemble source).labels.toList, Escape.Free entry.1 := by
  intro entry mem
  have named : entry.1 ∈ ((sourceLines source.toList).flatMap SourceLine.names).eraseDups := by
    rw [← (firstPass_places source).names, labels_firstPass]
    exact List.mem_map_of_mem mem
  obtain ⟨line, hl, defined⟩ := List.mem_flatMap.mp (List.mem_eraseDups.mp named)
  exact free_names hl _ defined

theorem Assembly.closed_entryLine (a : Assembly) (entry : Entry) : Closed (a.entryLine entry) := by
  have number : Closed (dim (Column.right 4 (toString entry.line))) :=
    (closed_of_free (printable_right (printable_natToString entry.line)).free).dim
  have gap : Closed "  " := closed_of_free (by decide)
  have address := closed_of_free (free_hexWord (addressOf entry.offset))
  have bytes : Closed (Column.left 8 (Hex.row (a.bytes entry))) := closed_of_free (free_column (free_row _))
  have newline : Closed "\n" := closed_of_free (by decide)
  refine ((((((number.append gap).append address).append gap).append bytes).append gap).append ?_).append newline
  cases a.instr? entry with
  | none => exact closed_of_free (by decide)
  | some i => exact closed_of_free i.free_toText

theorem free_labelLine {name : String} (free : Free name) (address : UInt16) : Free (labelLine name address) := by
  have gap : Free "  " := by decide
  simp only [labelLine, free_append]
  exact ⟨⟨⟨⟨gap, free_column free⟩, gap⟩, free_hexWord address⟩, by decide⟩

/-- No piece of a listing leaves an escape sequence open, for the names of its labels hold none. -/
theorem closed_listingPieces (source : String) : ∀ piece ∈ (assemble source).listingPieces, Closed piece := by
  intro piece mem
  rw [Assembly.listingPieces] at mem
  rcases List.mem_append.mp mem with entries | labels
  · obtain ⟨entry, -, rfl⟩ := List.mem_map.mp entries
    exact (assemble source).closed_entryLine entry
  · split at labels
    next => cases labels
    next =>
      rcases List.mem_cons.mp labels with rfl | lines
      · have title : Closed (bold "labels") := (closed_of_free (by decide)).bold
        have newline : Closed "\n" := closed_of_free (by decide)
        have opening : Closed " (" := closed_of_free (by decide)
        have closing : Closed ")\n" := closed_of_free (by decide)
        have size := closed_of_free (printable_natToString (assemble source).labels.size).free
        exact (((newline.append title).append opening).append size).append closing
      · obtain ⟨⟨name, address⟩, entry, rfl⟩ := List.mem_map.mp lines
        exact closed_of_free (free_labelLine (free_labels source _ entry) address)

theorem print_minimal_listing (source : String) (painter : Painter) :
    let pieces := (assemble source).listingPieces
    ({ minimal := true, painter } : Printer).print pieces = strip (({ painter } : Printer).print pieces) := by
  intro pieces
  have plain : ({ painter } : Printer).render = id := rfl
  have stripped : ({ minimal := true, painter } : Printer).render = strip := rfl
  rw [Printer.print, Printer.print, plain, stripped, List.map_id]
  exact strip_join (closed_listingPieces source)

/-- Stripping drops the escape sequences of a text, the last of them also when it never ends, and nothing else. A
listing may be stripped piece by piece. -/
theorem Escape.strip_exact :
    (∀ cut : Cut, strip (String.ofList cut.text) = String.ofList cut.plain) ∧
      (∀ s, ∃ cut : Cut, String.ofList cut.text = s) ∧
      (∀ s, Free (strip s)) ∧
      (∀ s, strip (strip s) = strip s) ∧
      (∀ s, Free s → strip s = s) ∧
      ∀ (source : String) (painter : Painter),
        let pieces := (assemble source).listingPieces
        let minimal := ({ minimal := true, painter } : Printer).print pieces
        minimal = strip (({ painter } : Printer).print pieces) ∧ Free minimal := by
  refine ⟨strip_cut, exists_cut_ofList, free_strip, fun s => strip_of_free (free_strip s), fun s => strip_of_free, ?_⟩
  intro source painter pieces minimal
  have same : minimal = strip (({ painter } : Printer).print pieces) := print_minimal_listing source painter
  exact ⟨same, same ▸ free_strip _⟩

/-- A sequence with an `ESC` inside, one that never ends, and the listing of a line with a label. -/
theorem Escape.strip_exact_label :
    strip "abc\x1bw[0\x1bxymdef\x1b[0x" = "abcdef" ∧
      strip "abcdef" = "abcdef" ∧
      ({ minimal := true } : Printer).print (assemble "go: mov b, c").listingPieces =
        "   1  0x0800  41        mov b, c\n\nlabels (1)\n  go            0x0800\n" := by
  obtain ⟨cuts, -, -, -, identity, listings⟩ := strip_exact
  let cut : Cut :=
    { head := ['a', 'b', 'c']
      sequences := [(['w', '[', '0', '\x1b', 'x', 'y'], ['d', 'e', 'f'])]
      unclosed := some ['[', '0', 'x']
      head_free := by decide
      sequences_free := by decide
      unclosed_free := by decide }
  refine ⟨cuts cut, identity "abcdef" (by decide), (listings "go: mov b, c" .plain).1.trans ?_⟩
  decide +kernel

end I8080
