import I8080.Proofs.CheckedLine
import I8080.Proofs.Listing

namespace I8080

/-- What has been emitted fits in the window, and the words that wait for a label lie in it. -/
structure Pass.Within (p : Pass) : Prop where
  offset : p.offset ≤ windowSize
  fixups : ∀ f ∈ p.fixups.toList, f.offset + 2 ≤ p.offset

theorem Pass.within_start : Pass.Within {} where
  offset := Nat.zero_le _
  fixups := by simp

/-- A word that waits for a label has room in its instruction. -/
theorem Statement.fixup_room {s : Statement} (hm : s.mnemonic ∈ Mnemonic.table) {labels : LabelTable} {i : Instr}
    (made : s.instr labels = .ok i) {line offset : Nat} {f : Fixup} (hf : f ∈ s.fixups labels line offset) :
    f.offset + 2 ≤ offset + i.size := by
  cases s.meaning hm with
  | fails c instr => cases made.symm.trans (instr labels)
  | fixed j instr closed =>
    rw [Statement.fixups_of_references closed] at hf
    cases hf
  | refers t build opcode encode instr single =>
    cases made.symm.trans (instr labels)
    rw [Instr.size_of_encode (encode _)]
    obtain ⟨reference, -, rfl⟩ := List.mem_map.mp hf
    exact Nat.le_refl _

namespace Pass.Within

variable {p : Pass}

theorem emit (h : p.Within) {q : Pass} {line : Nat} {s : Statement} (hm : s.mnemonic ∈ Mnemonic.table)
    (emits : p.emit line s = .ok q) : q.Within := by
  obtain ⟨i, made, fits, rfl⟩ := Pass.emit_eq_ok emits
  refine ⟨by rwa [i.length_encode], ?_⟩
  intro f hf
  dsimp only at hf ⊢
  rw [i.length_encode]
  rw [Array.toList_append, List.mem_append] at hf
  rcases hf with old | new
  · exact Nat.le_add_right_of_le (h.fixups f old)
  · exact Statement.fixup_room hm made new

theorem settle (h : p.Within) (line : SourceLine) : (p.settle line).Within := by
  rcases p.settle_cases line with ⟨c, fails⟩ | bare | ⟨s, hm, emits⟩
  · rw [fails]
    exact ⟨h.offset, h.fixups⟩
  · rwa [bare]
  · exact h.emit hm emits

theorem line (h : p.Within) (line : SourceLine) : (p.line line).Within := by
  rw [Pass.line_eq]
  cases line.label? with
  | none => exact h.settle line
  | some name =>
    dsimp only
    cases p.labels.insert? name.name (addressOf p.offset) with
    | none => exact ⟨h.offset, h.fixups⟩
    | some labels => exact Pass.Within.settle (p := { p with labels }) ⟨h.offset, h.fixups⟩ line

theorem foldl_line (h : p.Within) (lines : List SourceLine) : (lines.foldl Pass.line p).Within := by
  induction lines generalizing p with
  | nil => exact h
  | cons line lines ih => exact ih (h.line line)

end Pass.Within

theorem foldlM_checkedLine {source : List Char} {p : Pass} (within : p.Within) {lines : List SourceLine}
    (texts : ∀ line ∈ lines, ∀ t ∈ line.tokens, t.mark.text? source = some t.text) :
    (lines.map SourceLine.marked).foldlM (Pass.checkedLine source) p = some (lines.foldl Pass.line p) := by
  induction lines generalizing p with
  | nil => rfl
  | cons line lines ih =>
    rw [List.map_cons, List.foldlM_cons, Pass.checkedLine_eq (texts line List.mem_cons_self) within.offset]
    exact ih (within.line line) fun later hl => texts later (List.mem_cons_of_mem _ hl)

theorem Image.set?_of_lt {image : Image} {offset : Nat} (h : offset < windowSize) (b : UInt8) :
    image.set? offset b = some (image.setIfInBounds offset b) := by
  rw [Image.set?, dif_pos h]
  refine congrArg some (Vector.ext fun k hk => ?_)
  rw [Vector.getElem_set, Vector.getElem_setIfInBounds]

theorem Pass.checkedResolve_eq {p : Pass} {f : Fixup} (room : f.offset + 2 ≤ windowSize) :
    p.checkedResolve f = some (p.resolve f) := by
  unfold Pass.checkedResolve Pass.resolve
  cases p.labels.get? f.name with
  | none => rfl
  | some address =>
    dsimp only
    rw [Image.set?_of_lt (by omega), Option.bind_eq_bind, Option.bind_some, Image.set?_of_lt (by omega)]
    rfl

theorem foldlM_checkedResolve {p : Pass} {fixups : List Fixup}
    (room : ∀ f ∈ fixups, f.offset + 2 ≤ windowSize) :
    fixups.foldlM Pass.checkedResolve p = some (fixups.foldl Pass.resolve p) := by
  induction fixups generalizing p with
  | nil => rfl
  | cons f fixups ih =>
    rw [List.foldlM_cons, Pass.checkedResolve_eq (room f List.mem_cons_self)]
    exact ih fun g hg => room g (List.mem_cons_of_mem _ hg)

theorem checkedAssemble_eq (source : String) : checkedAssemble source = some (assemble source) := by
  have texts : ∀ line ∈ sourceLines source.toList, ∀ t ∈ line.tokens, t.mark.text? source.toList = some t.text :=
    fun line hl t ht => text_of_tokenize (tokens_of_sourceLines hl ht)
  have within : (firstPass source).Within := Pass.within_start.foldl_line (sourceLines source.toList)
  have resolve : (firstPass source).fixups.toList.foldlM Pass.checkedResolve (firstPass source) =
      some ((firstPass source).fixups.foldl Pass.resolve (firstPass source)) := by
    rw [← Array.foldl_toList]
    exact foldlM_checkedResolve fun f hf => Nat.le_trans (within.fixups f hf) within.offset
  rw [checkedAssemble, Cursor.marks?_ofText, Option.bind_eq_bind, Option.bind_some, markedLines_sourceLines,
    foldlM_checkedLine Pass.within_start texts, Option.bind_eq_bind, Option.bind_some]
  change (firstPass source).fixups.toList.foldlM Pass.checkedResolve (firstPass source) >>= _ = _
  rw [resolve]
  rfl

theorem Assembly.checkedEntryLine_eq {source : String} {e : Entry} (h : e ∈ (assemble source).listing) :
    (assemble source).checkedEntryLine e = some ((assemble source).entryLine e) := by
  rw [assemble_listing] at h
  obtain ⟨emission, emitted, rfl⟩ := List.mem_map.mp h
  have fits : emission.entry.offset + emission.entry.size ≤ windowSize := emission_fits emitted
  have slice : (assemble source).image.slice? emission.entry.offset (emission.entry.offset + emission.entry.size) =
      some ((assemble source).bytes emission.entry) := by
    rw [Image.slice?, sub?_of_le (Nat.le_add_right _ _), Nat.add_sub_cancel_left, Option.bind_eq_bind,
      Option.bind_some, if_pos fits]
    rfl
  rw [Assembly.checkedEntryLine, slice, word?_of_le (Nat.le_of_add_right_le fits)]
  rfl

theorem Assembly.checkedEntries_eq (source : String) :
    (assemble source).checkedEntries = some ((assemble source).listing.map (assemble source).entryLine) := by
  have all : ∀ es ⊆ (assemble source).listing,
      es.mapM (assemble source).checkedEntryLine = some (es.map (assemble source).entryLine) := by
    intro es listed
    induction es with
    | nil => rfl
    | cons e es ih =>
      rw [List.mapM_cons, Assembly.checkedEntryLine_eq (listed List.mem_cons_self),
        ih (List.Subset.trans (List.subset_cons_self e es) listed)]
      rfl
  exact all _ (List.Subset.refl _)

/-- Assembling a text and listing the result do nothing that is out of range: texts of tokens are cut out of the
source between its characters, differences of places are not negative, the operand to blame is there, bytes go
to places in the window, and no number outgrows its type. -/
theorem assemble_in_range (source : String) :
    checkedAssemble source = some (assemble source) ∧
      (assemble source).checkedEntries = some ((assemble source).listing.map (assemble source).entryLine) ∧
      (∀ t ∈ tokenize source.toList, slice? source.toList t.span.start t.span.stop = some t.text) ∧
      ∀ earlier ∈ (sourceLines source.toList).inits,
        (earlier.foldl Pass.line {}).offset ≤ windowSize ∧
          ∀ f ∈ (earlier.foldl Pass.line {}).fixups, f.offset + 1 < windowSize := by
  refine ⟨checkedAssemble_eq source, Assembly.checkedEntries_eq source, fun t ht => text_of_tokenize ht, ?_⟩
  intro earlier _
  have within := Pass.within_start.foldl_line earlier
  refine ⟨within.offset, fun f hf => ?_⟩
  have room := within.fixups f (Array.mem_toList_iff.mpr hf)
  have bound := within.offset
  omega

/-- A letter of two bytes is cut out whole, and nothing in the middle of it. -/
theorem assemble_in_range_letter :
    let source := "ß\nb: jmp b"
    checkedAssemble source = some (assemble source) ∧ slice? source.toList 0 2 = some ['ß'] ∧
      slice? source.toList 0 1 = none := by
  intro source
  obtain ⟨assembled, -, texts, -⟩ := assemble_in_range source
  have letter : ⟨.unknown, ['ß'], 0⟩ ∈ tokenize source.toList := by decide +kernel
  exact ⟨assembled, texts _ letter, by decide +kernel⟩

end I8080
