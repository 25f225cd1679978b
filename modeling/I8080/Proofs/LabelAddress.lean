import I8080.Proofs.Boundary
import Mathlib.Algebra.Order.BigOperators.Group.List
import Mathlib.Algebra.Order.Group.Nat
import Mathlib.Data.List.Induction

namespace I8080

theorem eraseDups_append_of_subset {α : Type} [DecidableEq α] {as bs : List α} (h : ∀ b ∈ bs, b ∈ as) :
    (as ++ bs).eraseDups = as.eraseDups := by
  have none : bs.removeAll as = [] := by
    rw [List.removeAll, List.filter_eq_nil_iff]
    simpa using h
  rw [List.eraseDups_append, none, List.eraseDups_nil, List.append_nil]

theorem eraseDups_append_singleton {α : Type} [DecidableEq α] {as : List α} {a : α} (h : a ∉ as) :
    (as ++ [a]).eraseDups = as.eraseDups ++ [a] := by
  have one : [a].removeAll as = [a] := by simpa [List.removeAll] using h
  rw [List.eraseDups_append, one]
  rfl

theorem nodup_eraseDups {α : Type} [DecidableEq α] (as : List α) : as.eraseDups.Nodup := by
  induction as using List.reverseRecOn with
  | nil => exact List.nodup_nil
  | append_singleton as a ih =>
    by_cases h : a ∈ as
    · rwa [eraseDups_append_of_subset (by simpa using h)]
    · rw [eraseDups_append_singleton h, List.nodup_append]
      refine ⟨ih, List.pairwise_singleton _ a, ?_⟩
      rintro b mem b' last rfl
      cases List.mem_singleton.mp last
      exact h (List.mem_eraseDups.mp mem)

theorem LabelTable.get?_ne_none_iff {table : LabelTable} {name : String} :
    table.get? name ≠ none ↔ name ∈ table.toList.map Prod.fst := by
  simp [LabelTable.get?, LabelTable.toList]

/-- The bytes of the instructions on the lines before a line. -/
def sizeBefore (es : List Entry) (number : Nat) : Nat :=
  ((es.filter fun e => e.line < number).map Entry.size).sum

theorem sizeBefore_le (es : List Entry) (number : Nat) : sizeBefore es number ≤ (es.map Entry.size).sum :=
  (List.filter_sublist.map Entry.size).sum_le_sum fun _ _ => Nat.zero_le _

theorem sizeBefore_of_lt {es : List Entry} {number : Nat} (h : ∀ e ∈ es, e.line < number) :
    sizeBefore es number = (es.map Entry.size).sum := by
  rw [sizeBefore, List.filter_eq_self.mpr (by simpa using h)]

theorem sizeBefore_of_le {es : List Entry} {number : Nat} (h : ∀ e ∈ es, number ≤ e.line) :
    sizeBefore es number = 0 := by
  have none : (es.filter fun e => e.line < number) = [] := by simpa [List.filter_eq_nil_iff] using h
  rw [sizeBefore, none]
  rfl

theorem sizeBefore_append (es later : List Entry) (number : Nat) :
    sizeBefore (es ++ later) number = sizeBefore es number + sizeBefore later number := by
  rw [sizeBefore, List.filter_append, List.map_append, List.sum_append]
  rfl

/-- The first line that starts with a label of this name. -/
def definedAt? (lines : List SourceLine) (name : String) : Option SourceLine :=
  lines.find? fun line => name ∈ line.names

theorem definedAt?_append_of_some {lines : List SourceLine} {name : String} {line : SourceLine}
    (h : definedAt? lines name = some line) (later : List SourceLine) :
    definedAt? (lines ++ later) name = some line := by
  have first : lines.find? (fun line => name ∈ line.names) = some line := h
  rw [definedAt?, List.find?_append, first, Option.some_or]

theorem definedAt?_append_singleton {lines : List SourceLine} {name : String} {line : SourceLine}
    (fresh : name ∉ lines.flatMap SourceLine.names) (here : name ∈ line.names) :
    definedAt? (lines ++ [line]) name = some line := by
  have before : lines.find? (fun line => name ∈ line.names) = none := by simpa [List.find?_eq_none] using fresh
  rw [definedAt?, List.find?_append, before, Option.none_or]
  simp [here]

/-- The labels of the lines so far, each behind the code of the lines before the first that defines it. -/
structure Pass.Places (lines : List SourceLine) (p : Pass) : Prop where
  names : p.labels.toList.map Prod.fst = (lines.flatMap SourceLine.names).eraseDups
  place : ∀ entry ∈ p.labels.toList, ∃ line, definedAt? lines entry.1 = some line ∧
    entry.2.toNat = 0x0800 + sizeBefore p.listing.toList line.number
  ordered : p.labels.toList.Pairwise fun entry later => entry.2.toNat ≤ later.2.toNat
  listed : ∀ e ∈ p.listing.toList, ∃ line ∈ lines, e.line = line.number
  offset : p.offset = (p.listing.toList.map Entry.size).sum
  inside : p.offset ≤ windowSize

namespace Pass.Places

variable {p : Pass} {lines : List SourceLine}

/-- No label has an address above the one of the next instruction. -/
theorem le_offset (h : p.Places lines) : ∀ entry ∈ p.labels.toList, entry.2.toNat ≤ 0x0800 + p.offset := by
  intro entry mem
  obtain ⟨line, -, place⟩ := h.place entry mem
  have before := sizeBefore_le p.listing.toList line.number
  rw [place, h.offset]
  omega

theorem mem_names_iff (h : p.Places lines) {name : String} :
    p.labels.get? name ≠ none ↔ name ∈ lines.flatMap SourceLine.names := by
  rw [LabelTable.get?_ne_none_iff, h.names, List.mem_eraseDups]

theorem same (h : p.Places lines) {q : Pass} (labels : q.labels = p.labels) (offset : q.offset = p.offset)
    (listing : q.listing = p.listing) : q.Places lines := by
  constructor
  case names => rw [labels, h.names]
  case place => rw [labels, listing]; exact h.place
  case ordered => rw [labels]; exact h.ordered
  case listed => rw [listing]; exact h.listed
  case offset => rw [offset, listing, h.offset]
  case inside => rw [offset]; exact h.inside

/-- An instruction of the last line leaves the labels where they are, also one on its own line. -/
theorem emit {line : SourceLine} (h : p.Places lines) (mem : line ∈ lines)
    (last : ∀ earlier ∈ lines, earlier.number ≤ line.number) {q : Pass} {e : Entry}
    (labels : q.labels = p.labels) (on_line : e.line = line.number)
    (moved : q.offset = p.offset + e.size) (fits : p.offset + e.size ≤ windowSize)
    (pushed : q.listing = p.listing.push e) : q.Places lines := by
  have listing : q.listing.toList = p.listing.toList ++ [e] := by rw [pushed, Array.toList_push]
  constructor
  case names => rw [labels, h.names]
  case ordered => rw [labels]; exact h.ordered
  case inside => omega
  case place =>
    intro entry known
    rw [labels] at known
    obtain ⟨first, defined, place⟩ := h.place entry known
    refine ⟨first, defined, ?_⟩
    have before := last first (List.mem_of_find?_eq_some defined)
    have own : sizeBefore [e] first.number = 0 := sizeBefore_of_le (by simpa [on_line] using before)
    rw [listing, sizeBefore_append, own, Nat.add_zero, place]
  case listed =>
    rw [listing]
    intro old listed
    rcases List.mem_append.mp listed with earlier | new
    · exact h.listed old earlier
    · cases List.mem_singleton.mp new
      exact ⟨line, mem, on_line⟩
  case offset =>
    rw [listing, moved, h.offset, List.map_append, List.sum_append]
    simp

theorem settle {line : SourceLine} (h : p.Places lines) (mem : line ∈ lines)
    (last : ∀ earlier ∈ lines, earlier.number ≤ line.number) :
    (p.settle line).Places lines := by
  have labels := p.labels_settle line
  rcases p.settle_places line with ⟨same, kept⟩ | ⟨e, on_line, -, fits, moved, pushed⟩
  · exact h.same labels same kept
  · exact h.emit mem last labels on_line moved fits pushed

theorem listed_append (h : p.Places lines) (later : List SourceLine) :
    ∀ e ∈ p.listing.toList, ∃ line ∈ lines ++ later, e.line = line.number := by
  intro e listed
  obtain ⟨line, mem, number⟩ := h.listed e listed
  exact ⟨line, List.mem_append_left _ mem, number⟩

/-- A line that defines nothing new moves nothing. -/
theorem pass {line : SourceLine} (h : p.Places lines)
    (known : ∀ name ∈ line.names, name ∈ lines.flatMap SourceLine.names) :
    p.Places (lines ++ [line]) where
  names := by rw [List.flatMap_append, List.flatMap_singleton, eraseDups_append_of_subset known, h.names]
  place := by
    intro entry mem
    obtain ⟨first, defined, place⟩ := h.place entry mem
    exact ⟨first, definedAt?_append_of_some defined _, place⟩
  ordered := h.ordered
  listed := h.listed_append _
  offset := h.offset
  inside := h.inside

theorem define {line : SourceLine} (h : p.Places lines)
    (later : ∀ earlier ∈ lines, earlier.number < line.number) {name : String} (labelled : line.names = [name])
    {labels : LabelTable} (hn : p.labels.insert? name (addressOf p.offset) = some labels) :
    Pass.Places (lines ++ [line]) { p with labels } := by
  have fresh : name ∉ lines.flatMap SourceLine.names := fun known =>
    h.mem_names_iff.mpr known (LabelTable.get?_eq_none_of_insert? hn)
  have table := LabelTable.toList_insert? hn
  have address := toNat_addressOf h.inside
  constructor
  case names =>
    rw [table, List.map_append, h.names, List.flatMap_append, List.flatMap_singleton, labelled,
      eraseDups_append_singleton fresh]
    rfl
  case place =>
    rw [table, List.forall_mem_append, List.forall_mem_singleton]
    constructor
    · intro entry mem
      obtain ⟨first, defined, place⟩ := h.place entry mem
      exact ⟨first, definedAt?_append_of_some defined _, place⟩
    · refine ⟨line, definedAt?_append_singleton fresh (by simp [labelled]), ?_⟩
      rw [address, h.offset, sizeBefore_of_lt]
      intro e listed
      obtain ⟨earlier, mem, number⟩ := h.listed e listed
      exact number ▸ later earlier mem
  case ordered =>
    rw [table, List.pairwise_append]
    refine ⟨h.ordered, List.pairwise_singleton _ _, ?_⟩
    intro entry mem new last
    cases List.mem_singleton.mp last
    rw [address]
    exact h.le_offset entry mem
  case listed => exact h.listed_append _
  case offset => exact h.offset
  case inside => exact h.inside

theorem line {line : SourceLine} (h : p.Places lines) (later : ∀ earlier ∈ lines, earlier.number < line.number) :
    (p.line line).Places (lines ++ [line]) := by
  have mem : line ∈ lines ++ [line] := by simp
  have last : ∀ earlier ∈ lines ++ [line], earlier.number ≤ line.number := by
    rw [List.forall_mem_append, List.forall_mem_singleton]
    exact ⟨fun earlier mem => Nat.le_of_lt (later earlier mem), Nat.le_refl _⟩
  rw [Pass.line_eq]
  cases labelled : line.label? with
  | none =>
    have passed : p.Places (lines ++ [line]) := h.pass (by simp [SourceLine.names, labelled])
    exact passed.settle mem last
  | some name =>
    have names : line.names = [name.name] := by simp [SourceLine.names, labelled]
    dsimp only
    cases hn : p.labels.insert? name.name (addressOf p.offset) with
    | none =>
      have known := h.mem_names_iff.mp (LabelTable.insert?_eq_none_iff.mp hn)
      have passed : p.Places (lines ++ [line]) :=
        h.pass (by simpa only [names, List.forall_mem_singleton] using known)
      exact passed.same rfl rfl rfl
    | some labels => exact (h.define later names hn).settle mem last

theorem foldl_line {rest : List SourceLine} (h : p.Places lines)
    (ordered : (lines ++ rest).Pairwise fun line later => line.number < later.number) :
    (rest.foldl Pass.line p).Places (lines ++ rest) := by
  induction rest generalizing p lines with
  | nil => rwa [List.append_nil]
  | cons line rest ih =>
    have earlier := (List.pairwise_append.mp ordered).2.2
    have step := h.line fun before mem => earlier before mem line List.mem_cons_self
    rw [List.append_cons] at ordered ⊢
    exact ih step ordered

end Pass.Places

theorem firstPass_places (source : String) : (firstPass source).Places (sourceLines source.toList) := by
  have start : Pass.Places [] {} :=
    ⟨rfl, List.forall_mem_nil _, .nil, List.forall_mem_nil _, rfl, Nat.zero_le _⟩
  exact start.foldl_line (sourceLines_ordered source.toList)

/-- Counting the code of earlier lines comes to the first instruction of this line or a later one. -/
theorem Tiles.add_sizeBefore {first last : Nat} {es : List Entry} (h : Tiles first es last)
    (ordered : es.Pairwise fun e later => e.line < later.line) (number : Nat) :
    first + sizeBefore es number = ((es.find? fun e => number ≤ e.line).map Entry.offset).getD last := by
  induction es generalizing first with
  | nil => exact h
  | cons e es ih =>
    obtain ⟨start, rest⟩ := h
    obtain ⟨above, later⟩ := List.pairwise_cons.mp ordered
    rw [← List.singleton_append, sizeBefore_append]
    by_cases before : e.line < number
    · have found : ([e] ++ es).find? (fun e => number ≤ e.line) = es.find? fun e => number ≤ e.line :=
        List.find?_cons_of_neg (by simpa using before)
      rw [found, ← ih rest later, sizeBefore_of_lt (by simpa using before), ← Nat.add_assoc]
      simp
    · have reached := Nat.le_of_not_lt before
      have found : ([e] ++ es).find? (fun e => number ≤ e.line) = some e :=
        List.find?_cons_of_pos (by simpa using reached)
      have none : sizeBefore es number = 0 :=
        sizeBefore_of_le fun next mem => Nat.le_of_lt (Nat.lt_of_le_of_lt reached (above next mem))
      rw [found, none, sizeBefore_of_le (by simpa using reached)]
      exact start.symm

theorem listing_ordered (source : String) :
    (assemble source).listing.Pairwise fun e later => e.line < later.line := by
  have ordered : (emissions (assemble source).labels source).Pairwise fun e later => e.line < later.line :=
    outcomes_ordered (sourceLines_ordered source.toList)
  rw [assemble_listing, List.pairwise_map]
  exact ordered

theorem sizeBefore_le_size (source : String) (number : Nat) :
    sizeBefore (assemble source).listing number ≤ (assemble source).size := by
  have total := (listing_tiles source).sum
  have before := sizeBefore_le (assemble source).listing number
  omega

/-- Every label has the address of the first instruction on its line or after it, whatever becomes of the rest of
the line. -/
theorem labels_precede_code (source : String) :
    (assemble source).labels.toList.map Prod.fst =
        ((sourceLines source.toList).flatMap SourceLine.names).eraseDups ∧
      ((assemble source).labels.toList.map Prod.fst).Nodup ∧
      (∀ entry ∈ (assemble source).labels.toList, ∃ line, definedAt? (sourceLines source.toList) entry.1 = some line ∧
        entry.2.toNat = 0x0800 + sizeBefore (assemble source).listing line.number ∧
        entry.2.toNat = 0x0800 +
          (((assemble source).listing.find? fun e => line.number ≤ e.line).map Entry.offset).getD
            (assemble source).size) ∧
      ((assemble source).labels.toList.Pairwise fun entry later => entry.2.toNat ≤ later.2.toNat) ∧
      ∀ entry ∈ (assemble source).labels.toList, 0x0800 ≤ entry.2.toNat ∧ entry.2.toNat ≤ 0x0BB0 := by
  have places := firstPass_places source
  have names := places.names
  have place := places.place
  have ordered := places.ordered
  rw [labels_firstPass] at names place ordered
  rw [listing_firstPass] at place
  refine ⟨names, names ▸ nodup_eraseDups _, ?_, ordered, ?_⟩
  · intro entry mem
    obtain ⟨line, defined, address⟩ := place entry mem
    have next := (listing_tiles source).add_sizeBefore (listing_ordered source) line.number
    rw [Nat.zero_add] at next
    exact ⟨line, defined, address, next ▸ address⟩
  · intro entry mem
    obtain ⟨line, -, address⟩ := place entry mem
    have before := sizeBefore_le_size source line.number
    have fits := size_le_windowSize source
    have window : windowSize = 944 := rfl
    omega

/-- The labels of lines that fail are kept, also before a line that defines one again. -/
theorem labels_precede_code_failing :
    let a := assemble "a: nop\nb: foo\na: hlt\nc: hlt"
    a.labels.toList = [("a", 0x0800), ("b", 0x0801), ("c", 0x0801)] ∧
      ∃ line, definedAt? (sourceLines "a: nop\nb: foo\na: hlt\nc: hlt".toList) "b" = some line ∧
        sizeBefore a.listing line.number = 1 := by
  intro a
  have labels : a.labels.toList = [("a", 0x0800), ("b", 0x0801), ("c", 0x0801)] := by decide +kernel
  obtain ⟨-, -, place, -⟩ := labels_precede_code "a: nop\nb: foo\na: hlt\nc: hlt"
  obtain ⟨line, defined, address, -⟩ := place ("b", 0x0801) (by rw [labels]; simp)
  have here : 0x0800 + 1 = 0x0800 + sizeBefore a.listing line.number := address
  exact ⟨labels, line, defined, (Nat.add_left_cancel here).symm⟩

end I8080
