import I8080.Proofs.Layout
import I8080.Proofs.Line
import I8080.Proofs.Reading

namespace I8080

/-- Instructions as a source text, each on a line of its own. -/
def disassembly (is : List Instr) : String :=
  "\n".intercalate (is.map Instr.toText)

/-- Where in the window the instruction of a listing entry stands, and how long it is. -/
def Entry.place (e : Entry) : Nat × Nat :=
  (e.offset, e.size)

theorem Spaced.newline_not_mem_row (words : List Spaced) : '\n' ∉ Spaced.row words := by
  intro hn
  obtain ⟨s, _, hs⟩ := List.mem_flatMap.mp hn
  rcases List.mem_append.mp hs with blank | word
  · exact absurd (s.separators _ blank) (by decide)
  · exact s.isWord.newline_not_mem word

theorem Mnemonic.isWord_name {m : Mnemonic} (hm : m ∈ Mnemonic.table) : IsWord .ident m.name.toList := by
  have words : ∀ name ∈ Mnemonic.table.map Mnemonic.name, name.toList.head?.any isIdentStart = true ∧
      name.toList.all isIdentRest = true := by decide
  have word := words m.name (List.mem_map_of_mem hm)
  exact .of_ident word.1 word.2

theorem Mnemonic.Makes.newline_not_mem {m : Mnemonic} {values : OperandKind.Values m.kinds} {i : Instr}
    (h : m.Makes values i) : '\n' ∉ i.toText.toList := by
  rw [h.text, List.mem_append, not_or]
  exact ⟨(Mnemonic.isWord_name h.mem).newline_not_mem, Spaced.newline_not_mem_row _⟩

theorem Mnemonic.Makes.meaningful {m : Mnemonic} {values : OperandKind.Values m.kinds} {i : Instr}
    (h : m.Makes values i) :
    meaningful (tokenize i.toText.toList) = (.ident, m.name.toList) :: OperandKind.lexemes m.kinds values := by
  have tokens := (Mnemonic.isWord_name h.mem).meaningful_tokenizeFrom
    (OperandKind.spacedAll 0 m.kinds values) 0
  rw [h.text, tokenize, tokens, OperandKind.lexeme_spacedAll]

theorem SourceLine.label?_eq_none {line : SourceLine} {head : Token} {operands : List Token}
    (tokens : line.tokens = head :: operands) (operand : ∀ t ∈ operands, t.isOperand = true) :
    line.label? = none := by
  rw [SourceLine.label?, tokens]
  cases operands with
  | nil => rfl
  | cons t operands =>
    have colon : t.kind ≠ .colon := by
      intro colon
      have ht := operand t (by simp)
      simp [Token.isOperand, colon] at ht
    simp [colon]

/-- A line on which an instruction stands as it is written comes to that instruction. -/
theorem Mnemonic.Makes.outcome {m : Mnemonic} {values : OperandKind.Values m.kinds} {i : Instr}
    (h : m.Makes values i) {line : SourceLine}
    (lexemes : line.tokens.map Token.lexeme = (.ident, m.name.toList) :: OperandKind.lexemes m.kinds values) :
    line.names = [] ∧ ∃ s : Statement, s.references = [] ∧ (∀ labels, s.instr labels = .ok i) ∧
      ∀ labels taken offset, line.outcome labels taken offset = s.outcome labels line.number offset := by
  obtain ⟨head, operands, tokens, first, rest⟩ := List.map_eq_cons_iff.mp lexemes
  obtain ⟨s, read, closed, instr⟩ := h.statement first rest
  have label := SourceLine.label?_eq_none tokens (OperandKind.isOperand_lexemes rest).2
  have body : line.body = head :: operands := by simp [SourceLine.body, label, tokens]
  refine ⟨by simp [SourceLine.names, label], s, closed, instr, ?_⟩
  intro labels taken offset
  simp [SourceLine.outcome, label, SourceLine.bodyOutcome, body, read]

theorem outcomes_disassembly {is : List Instr} (canonical : ∀ i ∈ is, i.Canonical) {lines : List SourceLine}
    (texts : (lines.map fun line => line.tokens.map Token.lexeme) =
      is.map fun i => meaningful (tokenize i.toText.toList))
    (labels : LabelTable) (taken : List String) (offset : Nat)
    (fits : offset + (is.flatMap Instr.encode).length ≤ windowSize) :
    ∃ es : List Emission, outcomes labels taken offset lines = es.map .emits ∧ es.map Emission.instr = is ∧
      ∀ e ∈ es, e.unresolved labels = [] := by
  induction is generalizing lines taken offset with
  | nil =>
    have empty : lines = [] := List.map_eq_nil_iff.mp texts
    exact ⟨[], by simp [empty, outcomes], rfl, by simp⟩
  | cons i is ih =>
    obtain ⟨line, lines, rfl, here, later⟩ := List.map_eq_cons_iff.mp texts
    obtain ⟨m, values, makes⟩ := Instr.made (canonical i (by simp))
    obtain ⟨names, s, closed, instr, outcome⟩ := makes.outcome (here.trans makes.meaningful)
    rw [List.flatMap_cons, List.length_append, Instr.length_encode] at fits
    have emits : line.outcome labels taken offset = .emits ⟨line.number, offset, s, i⟩ := by
      rw [outcome, Statement.outcome, instr]
      exact if_pos (by omega)
    obtain ⟨es, hes, instrs, known⟩ := ih (fun j hj => canonical j (by simp [hj])) later taken
      (offset + i.size) (by omega)
    refine ⟨⟨line.number, offset, s, i⟩ :: es, ?_, by simp [instrs], ?_⟩
    · simp [outcomes, emits, names, Outcome.bytes, Instr.length_encode, hes]
    · refine List.forall_mem_cons.mpr ⟨?_, known⟩
      simp [Emission.unresolved, closed]

theorem sourceLines_disassembly {is : List Instr} (canonical : ∀ i ∈ is, i.Canonical) :
    ((sourceLines (disassembly is).toList).map fun line => line.tokens.map Token.lexeme) =
      is.map fun i => meaningful (tokenize i.toText.toList) := by
  have text : (disassembly is).toList = ['\n'].intercalate (is.map fun i => i.toText.toList) := by
    rw [disassembly, String.toList_intercalate, List.map_map]
    rfl
  rw [text, sourceLines_intercalate, List.map_map]
  · rfl
  · intro line hl
    obtain ⟨i, hi, rfl⟩ := List.mem_map.mp hl
    obtain ⟨m, values, makes⟩ := Instr.made (canonical i hi)
    exact makes.newline_not_mem
  · intro line hl
    obtain ⟨i, hi, rfl⟩ := List.mem_map.mp hl
    obtain ⟨m, values, makes⟩ := Instr.made (canonical i hi)
    simp [makes.meaningful]

theorem assemble_disassembly {is : List Instr} (canonical : ∀ i ∈ is, i.Canonical)
    (fits : (is.flatMap Instr.encode).length ≤ windowSize) :
    (assemble (disassembly is)).diagnostics = [] ∧
      (assemble (disassembly is)).listing.map (assemble (disassembly is)).instr? = is.map some ∧
      (assemble (disassembly is)).listing.map Entry.place = layout 0 is ∧
      (assemble (disassembly is)).image.toList = zeroPadded (is.flatMap Instr.encode) := by
  obtain ⟨es, hes, instrs, known⟩ := outcomes_disassembly canonical (sourceLines_disassembly canonical)
    (assemble (disassembly is)).labels [] 0 (by omega)
  have emitted : emissions (assemble (disassembly is)).labels (disassembly is) = es := by
    rw [emissions, hes, List.filterMap_map]
    exact List.filterMap_some
  have quiet : (es.map Outcome.emits).filterMap Outcome.diagnostic? = [] := by
    rw [List.filterMap_map]
    simp [Outcome.diagnostic?]
  refine ⟨?_, ?_, ?_, ?_⟩
  · rw [assemble_diagnostics, emitted, hes, quiet, List.nil_append, List.flatMap_eq_nil_iff.mpr known,
      List.mergeSort_nil]
  · rw [assemble_instr?, emitted, instrs]
  · rw [assemble_listing, emitted, List.map_map, ← instrs, ← emitted]
    exact emissions_layout _ _
  · rw [Image.toList_of_ofBytes? (assemble_image _), emitted, ← instrs, List.flatMap_map]

/-- Instructions that the byte format holds come back from their text, and so does every image from the
text of the instructions that it was assembled to. -/
theorem assemble_disassembly_restores :
    (∀ is : List Instr, (∀ i ∈ is, ∃ opcode low high, Instr.decode opcode low high = some i) →
      (is.flatMap Instr.encode).length ≤ windowSize →
        (assemble (disassembly is)).diagnostics = [] ∧
          (assemble (disassembly is)).listing.map (assemble (disassembly is)).instr? = is.map some ∧
          (assemble (disassembly is)).listing.map Entry.place = layout 0 is ∧
          (assemble (disassembly is)).image.toList = zeroPadded (is.flatMap Instr.encode)) ∧
      ∀ source, ∃ is : List Instr,
        (assemble source).listing.map (assemble source).instr? = is.map some ∧
          (assemble (disassembly is)).diagnostics = [] ∧
          (assemble (disassembly is)).image = (assemble source).image ∧
          (assemble (disassembly is)).listing.map Entry.place = (assemble source).listing.map Entry.place := by
  refine ⟨fun is decoded fits => ?_, fun source => ?_⟩
  · exact assemble_disassembly (fun i hi => Instr.canonical_iff_decode.mpr (decoded i hi)) fits
  · have image := Image.toList_of_ofBytes? (assemble_image source)
    have code := List.flatMap_map Emission.instr Instr.encode (emissions (assemble source).labels source)
    have size := (Image.ofBytes?_eq_some_iff.mp (assemble_image source)).1
    obtain ⟨quiet, _, places, again⟩ := assemble_disassembly (emissions_canonical (assemble source).labels source)
      (by rw [code]; exact size)
    refine ⟨_, assemble_instr? source, quiet, ?_, ?_⟩
    · apply Vector.toList_inj.mp
      rw [again, image, code]
    · rw [places, assemble_listing, List.map_map]
      exact (emissions_layout _ _).symm

theorem assemble_disassembly_restores_program :
    (assemble (disassembly [.lxi .sp 0x0A00, .alu .sub .mem, .jmpIf .notZero 0x0800])).diagnostics = [] ∧
      (assemble (disassembly [.lxi .sp 0x0A00, .alu .sub .mem, .jmpIf .notZero 0x0800])).image.toList =
        zeroPadded [0x31, 0x00, 0x0A, 0x96, 0xC2, 0x00, 0x08] := by
  have decoded : ∀ i ∈ [Instr.lxi .sp 0x0A00, .alu .sub .mem, .jmpIf .notZero 0x0800],
      ∃ opcode low high, Instr.decode opcode low high = some i := by
    simp only [List.forall_mem_cons]
    exact ⟨⟨0x31, 0x00, 0x0A, by decide⟩, ⟨0x96, 0, 0, by decide⟩, ⟨0xC2, 0x00, 0x08, by decide⟩, by simp⟩
  obtain ⟨quiet, _, _, image⟩ := assemble_disassembly_restores.1 _ decoded (by decide)
  exact ⟨quiet, image⟩

end I8080
