import I8080.Proofs.Image
import I8080.Proofs.Outcome

namespace I8080

def Fixup.diagnostic (f : Fixup) : Diagnostic :=
  ⟨⟨f.span, .unresolvedLabel f.name⟩, f.line⟩

/-- What a fixup does to the image in the end. -/
def Image.fill (labels : LabelTable) (image : Image) (f : Fixup) : Image :=
  match labels.get? f.name with
  | some address => image.write f.offset [Word.low address, Word.high address]
  | none => image

theorem Image.foldl_fill_write {labels : LabelTable} {fixups : List Fixup} {offset : Nat}
    (below : ∀ f ∈ fixups, f.offset + 2 ≤ offset) (image : Image) (bytes : List UInt8) :
    fixups.foldl (Image.fill labels) (image.write offset bytes) =
      (fixups.foldl (Image.fill labels) image).write offset bytes := by
  induction fixups generalizing image with
  | nil => rfl
  | cons f fixups ih =>
    have step : Image.fill labels (image.write offset bytes) f =
        (Image.fill labels image f).write offset bytes := by
      unfold Image.fill
      cases labels.get? f.name with
      | none => rfl
      | some address => exact Image.write_comm (below f (by simp))
    rw [List.foldl_cons, List.foldl_cons, step]
    exact ih (fun g hg => below g (by simp [hg])) _

/-- The placeholder bytes of a forward reference become its address. -/
theorem Image.fill_word {labels : LabelTable} {f : Fixup} {offset : Nat} (h : f.offset = offset + 1)
    (image : Image) (opcode : UInt8) :
    Image.fill labels (image.write offset (withWord opcode 0)) f =
      image.write offset (withWord opcode (labels.address f.name)) := by
  unfold Image.fill LabelTable.address withWord
  rw [h]
  cases labels.get? f.name with
  | none => rfl
  | some address => exact Image.write_write_tail rfl

theorem Instr.size_of_encode {i : Instr} {opcode : UInt8} {w : UInt16} (h : i.encode = withWord opcode w) :
    i.size = 3 := by
  rw [← i.length_encode, h]
  rfl

/-- The fixups that a statement leaves at `offset`. -/
def Statement.fixups (s : Statement) (labels : LabelTable) (line offset : Nat) : List Fixup :=
  (s.reference? labels).toList.map fun reference => { reference with line, offset := offset + 1 }

theorem Statement.fixups_of_references {s : Statement} (h : s.references = []) (labels : LabelTable)
    (line offset : Nat) : s.fixups labels line offset = [] := by
  simp [Statement.fixups, Statement.reference?_eq, h]

theorem Statement.fixups_of_known {s : Statement} {t : Token} {labels : LabelTable}
    (single : s.references = [t]) (known : labels.get? t.name ≠ none) (line offset : Nat) :
    s.fixups labels line offset = [] := by
  simp [Statement.fixups, Statement.reference?_eq, single, known]

theorem Statement.fixups_of_unknown {s : Statement} {t : Token} {labels : LabelTable}
    (single : s.references = [t]) (unknown : labels.get? t.name = none) (line offset : Nat) :
    s.fixups labels line offset = [⟨⟨t.name, t.span⟩, line, offset + 1⟩] := by
  simp [Statement.fixups, Statement.reference?_eq, single, unknown]

theorem Pass.emit_of_instr {p : Pass} {line : Nat} {s : Statement} {i : Instr}
    (hi : s.instr p.labels = .ok i) (fits : p.offset + i.size ≤ windowSize) :
    p.emit line s = .ok { p with
      image := p.image.write p.offset i.encode
      offset := p.offset + i.encode.length
      listing := p.listing.push ⟨line, s.span, p.offset, i.size⟩
      fixups := p.fixups ++ (s.fixups p.labels line p.offset).toArray } := by
  unfold Pass.emit
  rw [hi]
  simp only [bind, Except.bind, i.length_encode, if_pos fits]
  unfold Statement.fixups
  cases s.reference? p.labels <;> simp <;> rfl

theorem Pass.emit_of_overflow {p : Pass} {line : Nat} {s : Statement} {i : Instr}
    (hi : s.instr p.labels = .ok i) (overflow : ¬p.offset + i.size ≤ windowSize) :
    p.emit line s = .error ⟨s.span, .programTooLarge p.offset⟩ := by
  unfold Pass.emit
  rw [hi]
  simp only [bind, Except.bind, i.length_encode, if_neg overflow]
  rfl

theorem Pass.emit_of_error {p : Pass} {line : Nat} {s : Statement} {c : Complaint}
    (hi : s.instr p.labels = .error c) : p.emit line s = .error c := by
  unfold Pass.emit
  rw [hi]
  rfl

theorem Pass.emit_eq_ok {p q : Pass} {line : Nat} {s : Statement} (h : p.emit line s = .ok q) :
    ∃ i : Instr, s.instr p.labels = .ok i ∧ p.offset + i.size ≤ windowSize ∧ q = { p with
      image := p.image.write p.offset i.encode
      offset := p.offset + i.encode.length
      listing := p.listing.push ⟨line, s.span, p.offset, i.size⟩
      fixups := p.fixups ++ (s.fixups p.labels line p.offset).toArray } := by
  cases hi : s.instr p.labels with
  | error c => simp [Pass.emit_of_error hi] at h
  | ok i =>
    by_cases fits : p.offset + i.size ≤ windowSize
    · rw [Pass.emit_of_instr hi fits] at h
      exact ⟨i, rfl, fits, (Except.ok.inj h).symm⟩
    · simp [Pass.emit_of_overflow hi fits] at h

/-- Takes in what a line holds after its label. -/
def Pass.settle (p : Pass) (line : SourceLine) : Pass :=
  match p.body line with
  | .error c => p.report line.number c
  | .ok q => q

theorem Pass.line_eq (p : Pass) (line : SourceLine) :
    p.line line = match line.label? with
      | none => p.settle line
      | some name =>
        match p.labels.insert? name.name (addressOf p.offset) with
        | none => p.report line.number ⟨name.span, .duplicateLabel name.name⟩
        | some labels => { p with labels }.settle line := by
  unfold Pass.line Pass.define Pass.settle
  cases line.label? with
  | none => rfl
  | some name =>
    dsimp only
    cases p.labels.insert? name.name (addressOf p.offset) <;> rfl

/-- What a line holds after its label fails, or is nothing, or is a statement that is emitted. -/
theorem Pass.settle_cases (p : Pass) (line : SourceLine) :
    (∃ c, p.settle line = p.report line.number c) ∨ p.settle line = p ∨
      ∃ s : Statement, s.mnemonic ∈ Mnemonic.table ∧ p.emit line.number s = .ok (p.settle line) := by
  unfold Pass.settle
  cases hb : p.body line with
  | error c => exact .inl ⟨c, rfl⟩
  | ok q =>
    refine .inr ?_
    unfold Pass.body at hb
    split at hb
    next =>
      cases hb
      exact .inl rfl
    next head operands _ =>
      obtain ⟨s, read, emit⟩ := exists_of_bind_eq_ok hb
      exact .inr ⟨s, Statement.mnemonic_mem_table read, emit⟩

theorem Pass.labels_settle (p : Pass) (line : SourceLine) : (p.settle line).labels = p.labels := by
  rcases p.settle_cases line with ⟨c, fails⟩ | bare | ⟨s, -, emits⟩
  · rw [fails, Pass.report]
  · rw [bare]
  · obtain ⟨i, -, -, emitted⟩ := Pass.emit_eq_ok emits
    rw [emitted]

/-- The state of the first pass after lines that come to `os`, where the label table is going to be
`labels`. Its image is the final one up to its fixups, all of which lie in what has been emitted. -/
structure Pass.Tracks (labels : LabelTable) (taken : List String) (os : List Outcome) (p : Pass) : Prop where
  names : ∀ name, p.labels.get? name ≠ none ↔ name ∈ taken
  offset : p.offset = (os.flatMap Outcome.bytes).length
  image : Image.ofBytes? (os.flatMap Outcome.bytes) = some (p.fixups.toList.foldl (Image.fill labels) p.image)
  below : ∀ f ∈ p.fixups.toList, f.offset + 2 ≤ p.offset
  unresolved : (p.fixups.toList.filter fun f => (labels.get? f.name).isNone).map Fixup.diagnostic =
    os.flatMap (Outcome.unresolved labels)
  listing : p.listing.toList = (os.filterMap Outcome.emission?).map Emission.entry
  diagnostics : p.diagnostics.toList = os.filterMap Outcome.diagnostic?

theorem Pass.tracks_start (labels : LabelTable) : Pass.Tracks labels [] [] {} where
  names := by simp [LabelTable.get?_empty]
  offset := rfl
  image := by
    refine Image.ofBytes?_eq_some_iff.mpr ⟨by simp, fun k hk => ?_⟩
    simp [Image.blank]
  below := by simp
  unresolved := rfl
  listing := rfl
  diagnostics := rfl

namespace Pass.Tracks

variable {labels : LabelTable} {taken : List String} {os : List Outcome} {p : Pass}

theorem report (h : p.Tracks labels taken os) (line : Nat) (c : Complaint) :
    (p.report line c).Tracks labels taken (os ++ [.fails { c with line }]) where
  names := h.names
  offset := by simpa [Pass.report, Outcome.bytes] using h.offset
  image := by simpa [Pass.report, Outcome.bytes] using h.image
  below := h.below
  unresolved := by simpa [Pass.report, Outcome.unresolved] using h.unresolved
  listing := by simpa [Pass.report, Outcome.emission?, List.filterMap_cons] using h.listing
  diagnostics := by simp [Pass.report, Outcome.diagnostic?, h.diagnostics]

theorem silent (h : p.Tracks labels taken os) : p.Tracks labels taken (os ++ [.silent]) where
  names := h.names
  offset := by simpa [Outcome.bytes] using h.offset
  image := by simpa [Outcome.bytes] using h.image
  below := h.below
  unresolved := by simpa [Outcome.unresolved] using h.unresolved
  listing := by simpa [Outcome.emission?, List.filterMap_cons] using h.listing
  diagnostics := by simpa [Outcome.diagnostic?, List.filterMap_cons] using h.diagnostics

/-- The instruction `i` that goes into the image may differ from the final one in what its own fixups fill
in. -/
theorem place (h : p.Tracks labels taken os) {e : Emission} (i : Instr) (fixups : List Fixup)
    (size : i.size = e.instr.size) (fits : p.offset + i.size ≤ windowSize)
    (below : ∀ f ∈ fixups, f.offset + 2 ≤ p.offset + i.size)
    (filled : ∀ image : Image, fixups.foldl (Image.fill labels) (image.write p.offset i.encode) =
      image.write p.offset e.instr.encode)
    (unresolved : (fixups.filter fun f => (labels.get? f.name).isNone).map Fixup.diagnostic =
      e.unresolved labels) :
    Pass.Tracks labels taken (os ++ [.emits e]) { p with
      image := p.image.write p.offset i.encode
      offset := p.offset + i.encode.length
      listing := p.listing.push ⟨e.line, e.statement.span, e.offset, i.size⟩
      fixups := p.fixups ++ fixups.toArray } := by
  have length := i.length_encode
  have length' := e.instr.length_encode
  constructor
  · exact h.names
  · simp [Outcome.bytes, h.offset, length, length', size]
  · simp only [Array.toList_append, List.foldl_append, List.flatMap_append, List.flatMap_singleton,
      Outcome.bytes]
    rw [Image.foldl_fill_write h.below, filled, h.offset]
    refine Image.ofBytes?_append h.image ?_
    rw [← h.offset, length']
    omega
  · intro f hf
    have hf : f ∈ p.fixups.toList ∨ f ∈ fixups := by simpa using hf
    rcases hf with old | new
    · have := h.below f old
      dsimp only
      omega
    · have := below f new
      dsimp only
      omega
  · simp only [Array.toList_append, List.filter_append, List.map_append, h.unresolved, unresolved]
    simp [Outcome.unresolved]
  · simp [Outcome.emission?, Emission.entry, h.listing, size]
  · simpa [Outcome.diagnostic?, List.filterMap_cons] using h.diagnostics

theorem emit_reference (h : p.Tracks labels taken os) (known : labels.Extends p.labels) {s : Statement}
    {t : Token} {build : UInt16 → Instr} {opcode : UInt8}
    (encode : ∀ w, (build w).encode = withWord opcode w) (single : s.references = [t]) (line : Nat)
    (fits : p.offset + 3 ≤ windowSize) :
    Pass.Tracks labels taken (os ++ [.emits ⟨line, p.offset, s, build (labels.address t.name)⟩]) { p with
      image := p.image.write p.offset (build (p.labels.address t.name)).encode
      offset := p.offset + (build (p.labels.address t.name)).encode.length
      listing := p.listing.push ⟨line, s.span, p.offset, 3⟩
      fixups := p.fixups ++ (s.fixups p.labels line p.offset).toArray } := by
  have size : ∀ w, (build w).size = 3 := fun w => Instr.size_of_encode (encode w)
  rw [← size (p.labels.address t.name)]
  by_cases ht : p.labels.get? t.name = none
  · rw [Statement.fixups_of_unknown single ht]
    refine h.place _ _ (by rw [size, size]) (by rw [size]; exact fits) ?_ ?_ ?_
    · simp [size]
    · intro image
      rw [List.foldl_cons, List.foldl_nil, encode, encode, LabelTable.address_of_get?_none ht]
      exact Image.fill_word rfl image opcode
    · simp only [Emission.unresolved, single]
      by_cases hl : labels.get? t.name = none
      · simp [hl, Fixup.diagnostic]
      · simp [hl]
  · rw [Statement.fixups_of_known single ht, ← known.address ht]
    refine h.place _ _ rfl (by rw [size]; exact fits) (by simp) (fun _ => rfl) ?_
    obtain ⟨address, ha⟩ := Option.ne_none_iff_exists'.mp ht
    simp [Emission.unresolved, single, known _ _ ha]

theorem emit (h : p.Tracks labels taken os) (known : labels.Extends p.labels) {s : Statement}
    (hm : s.mnemonic ∈ Mnemonic.table) (line : Nat) :
    (∃ q, p.emit line s = .ok q ∧ q.Tracks labels taken (os ++ [s.outcome labels line p.offset])) ∨
      ∃ c, p.emit line s = .error c ∧ s.outcome labels line p.offset = .fails { c with line } := by
  cases s.meaning hm with
  | fails c instr =>
    refine .inr ⟨c, Pass.emit_of_error (instr _), ?_⟩
    simp only [Statement.outcome, instr]
  | fixed i instr closed =>
    by_cases fits : p.offset + i.size ≤ windowSize
    · refine .inl ⟨_, Pass.emit_of_instr (instr _) fits, ?_⟩
      simp only [Statement.outcome, instr, if_pos fits, Statement.fixups_of_references closed]
      refine h.place _ _ rfl fits (by simp) (fun _ => rfl) ?_
      simp [Emission.unresolved, closed]
    · refine .inr ⟨_, Pass.emit_of_overflow (instr _) fits, ?_⟩
      simp only [Statement.outcome, instr, if_neg fits]
  | refers t build opcode encode instr single =>
    have size : ∀ w, (build w).size = 3 := fun w => Instr.size_of_encode (encode w)
    by_cases fits : p.offset + 3 ≤ windowSize
    · refine .inl ⟨_, Pass.emit_of_instr (instr _) (by rw [size]; exact fits), ?_⟩
      simp only [Statement.outcome, instr, size, if_pos fits]
      exact h.emit_reference known encode single line fits
    · refine .inr ⟨_, Pass.emit_of_overflow (instr _) (by rw [size]; exact fits), ?_⟩
      simp only [Statement.outcome, instr, size, if_neg fits]

theorem settle (h : p.Tracks labels taken os) (known : labels.Extends p.labels) (line : SourceLine) :
    (p.settle line).Tracks labels taken (os ++ [line.bodyOutcome labels p.offset]) := by
  unfold Pass.settle Pass.body SourceLine.bodyOutcome
  cases line.body with
  | nil => exact h.silent
  | cons head operands =>
    cases hs : Statement.ofTokens head operands with
    | error c => simpa only [bind, Except.bind, hs] using h.report line.number c
    | ok s =>
      have hm := Statement.mnemonic_mem_table hs
      rcases h.emit known hm line.number with ⟨q, hq, tracks⟩ | ⟨c, hc, fails⟩
      · simpa only [bind, Except.bind, hs, hq] using tracks
      · simpa only [bind, Except.bind, hs, hc, fails] using h.report line.number c

theorem names_cons_of_mem (h : p.Tracks labels taken os) {name : String} (mem : name ∈ taken) :
    p.Tracks labels (name :: taken) os :=
  { h with
    names := by
      intro query
      rw [h.names, List.mem_cons]
      constructor
      · exact .inr
      · rintro (rfl | hq)
        · exact mem
        · exact hq }

theorem define (h : p.Tracks labels taken os) {name : String} {address : UInt16} {next : LabelTable}
    (hn : p.labels.insert? name address = some next) :
    Pass.Tracks labels (name :: taken) os { p with labels := next } :=
  { h with
    names := by
      intro query
      rw [LabelTable.get?_insert? hn, List.mem_cons, ← h.names]
      by_cases hq : query = name <;> simp [hq] }

theorem line (h : p.Tracks labels taken os) (line : SourceLine)
    (known : labels.Extends (p.line line).labels) :
    (p.line line).Tracks labels (line.names ++ taken) (os ++ [line.outcome labels taken p.offset]) := by
  rw [Pass.line_eq] at known ⊢
  unfold SourceLine.names SourceLine.outcome
  cases hl : line.label? with
  | none =>
    simp only [hl, Pass.labels_settle] at known
    exact h.settle known line
  | some name =>
    simp only [hl] at known
    dsimp only
    cases hn : p.labels.insert? name.name (addressOf p.offset) with
    | none =>
      have mem := (h.names name.name).mp (LabelTable.insert?_eq_none_iff.mp hn)
      simp only [if_pos mem]
      exact (h.names_cons_of_mem mem).report line.number _
    | some next =>
      have fresh : name.name ∉ taken :=
        fun mem => (h.names name.name).mpr mem (LabelTable.get?_eq_none_of_insert? hn)
      simp only [hn, Pass.labels_settle] at known
      simp only [if_neg fresh]
      exact (h.define hn).settle known line

end Pass.Tracks

theorem Pass.extends_line (p : Pass) (line : SourceLine) : (p.line line).labels.Extends p.labels := by
  rw [Pass.line_eq]
  cases line.label? with
  | none =>
    dsimp only
    rw [Pass.labels_settle]
    exact .refl _
  | some name =>
    dsimp only
    cases hn : p.labels.insert? name.name (addressOf p.offset) with
    | none => exact .refl _
    | some next =>
      dsimp only
      rw [Pass.labels_settle]
      exact LabelTable.extends_insert? hn

theorem Pass.extends_foldl_line (p : Pass) (lines : List SourceLine) :
    (lines.foldl Pass.line p).labels.Extends p.labels := by
  induction lines generalizing p with
  | nil => exact .refl _
  | cons line lines ih => exact (ih _).trans (p.extends_line line)

theorem Pass.Tracks.foldl_line {labels : LabelTable} {taken : List String} {os : List Outcome} {p : Pass}
    (h : p.Tracks labels taken os) (lines : List SourceLine)
    (known : labels.Extends (lines.foldl Pass.line p).labels) :
    ∃ taken', (lines.foldl Pass.line p).Tracks labels taken' (os ++ outcomes labels taken p.offset lines) := by
  induction lines generalizing p taken os with
  | nil => exact ⟨taken, by simpa [outcomes] using h⟩
  | cons line lines ih =>
    have step := h.line line (known.trans (Pass.extends_foldl_line _ lines))
    obtain ⟨taken', run⟩ := ih step known
    have offset : (p.line line).offset = p.offset + (line.outcome labels taken p.offset).bytes.length := by
      simp [step.offset, h.offset]
    refine ⟨taken', ?_⟩
    simpa [outcomes, offset] using run

end I8080
