import I8080.Proofs.Boundary
import I8080.Proofs.Completion
import I8080.Proofs.Isolation

namespace I8080

/-- A source text that goes on with the lines of another. -/
def appendLines (text more : String) : String :=
  text ++ "\n" ++ more

def lineCount (text : String) : Nat :=
  (text.toList.splitOn '\n').length

/-- Whether a diagnostic misses a label that a text defines. -/
def Diagnostic.answeredBy (text : String) (d : Diagnostic) : Bool :=
  match d.error with
  | .unresolvedLabel name => name ∈ labelNames text.toList
  | _ => false

theorem Diagnostic.isUnresolved_of_answeredBy {text : String} {d : Diagnostic} (h : d.answeredBy text = true) :
    d.error.isUnresolved = true := by
  unfold Diagnostic.answeredBy at h
  cases error : d.error <;> first | rfl | (rw [error] at h; cases h)

theorem Pass.labels_prefix_line (p : Pass) (line : SourceLine) :
    p.labels.toList <+: (p.line line).labels.toList := by
  rw [Pass.line_eq]
  cases line.label? with
  | none => exact ⟨[], by rw [List.append_nil, Pass.labels_settle]⟩
  | some name =>
    dsimp only
    cases hn : p.labels.insert? name.name (addressOf p.offset) with
    | none => exact List.prefix_rfl
    | some next =>
      dsimp only
      rw [Pass.labels_settle, LabelTable.toList_insert? hn]
      exact List.prefix_append _ _

theorem Pass.labels_prefix_foldl_line (p : Pass) (lines : List SourceLine) :
    p.labels.toList <+: (lines.foldl Pass.line p).labels.toList := by
  induction lines generalizing p with
  | nil => exact List.prefix_rfl
  | cons line lines ih => exact (p.labels_prefix_line line).trans (ih _)

/-- Tiles leave no gap, so each offset that they reach over lies in one of them. -/
theorem Tiles.exists_covering {first last : Nat} {es : List Entry} (h : Tiles first es last) {k : Nat}
    (from_ : first ≤ k) (below : k < last) : ∃ e ∈ es, e.offset ≤ k ∧ k < e.offset + e.size := by
  induction es generalizing first with
  | nil =>
    have stop : first = last := h
    omega
  | cons e es ih =>
    obtain ⟨start, rest⟩ := h
    by_cases here : k < first + e.size
    · exact ⟨e, List.mem_cons_self, by omega, by omega⟩
    · obtain ⟨later, mem, covers⟩ := ih rest (by omega)
      exact ⟨later, List.mem_cons_of_mem _ mem, covers⟩

theorem exists_of_forall₂_mem {α β : Type} {r : α → β → Prop} {as : List α} {bs : List β}
    (h : List.Forall₂ r as bs) {a : α} (mem : a ∈ as) : ∃ b ∈ bs, r a b := by
  induction h with
  | nil => cases mem
  | cons first _ ih =>
    rcases List.mem_cons.mp mem with rfl | later
    · exact ⟨_, List.mem_cons_self, first⟩
    · obtain ⟨b, hb, related⟩ := ih later
      exact ⟨b, List.mem_cons_of_mem _ hb, related⟩

theorem eq_of_key_eq {α : Type} {key : α → Nat} {as : List α} (ordered : as.Pairwise fun a b => key a < key b)
    {a b : α} (ha : a ∈ as) (hb : b ∈ as) (same : key a = key b) : a = b := by
  have nodup : (as.map key).Nodup := List.pairwise_map.mpr (ordered.imp Nat.ne_of_lt)
  exact List.inj_on_of_nodup_map nodup ha hb same

section Append

variable (text more : String)

/-- The source lines that the second text adds. -/
def addedLines : List SourceLine :=
  numberedLines (1 + lineCount text) (lineTokens (0 + byteLength text.toList + 1) (more.toList.splitOn '\n'))

theorem sourceLines_appendLines :
    sourceLines (appendLines text more).toList = sourceLines text.toList ++ addedLines text more := by
  have joined : (appendLines text more).toList = text.toList ++ '\n' :: more.toList := by simp [appendLines]
  rw [joined, sourceLines_append]
  rfl

theorem names_addedLines : (addedLines text more).flatMap SourceLine.names = labelNames more.toList :=
  names_numberedLines _ _ _

theorem firstPass_appendLines :
    firstPass (appendLines text more) = (addedLines text more).foldl Pass.line (firstPass text) := by
  rw [firstPass, sourceLines_appendLines, List.foldl_append]
  rfl

theorem labels_before_appendLines :
    (assemble text).labels.toList <+: (assemble (appendLines text more)).labels.toList := by
  rw [← labels_firstPass, ← labels_firstPass, firstPass_appendLines]
  exact Pass.labels_prefix_foldl_line _ _

theorem labels_appendLines_extends :
    (assemble (appendLines text more)).labels.Extends (assemble text).labels := by
  rw [← labels_firstPass, ← labels_firstPass, firstPass_appendLines]
  exact Pass.extends_foldl_line _ _

theorem labels_appendLines_names (name : String) :
    (assemble (appendLines text more)).labels.get? name ≠ none ↔
      (assemble text).labels.get? name ≠ none ∨ name ∈ labelNames more.toList := by
  rw [← labels_firstPass, ← labels_firstPass, firstPass_appendLines, Pass.names_foldl_line, names_addedLines]

theorem outcomes_appendLines :
    ∃ taken offset,
      outcomes (assemble (appendLines text more)).labels [] 0 (sourceLines (appendLines text more).toList) =
      outcomes (assemble (appendLines text more)).labels [] 0 (sourceLines text.toList) ++
        outcomes (assemble (appendLines text more)).labels taken offset (addedLines text more) := by
  rw [sourceLines_appendLines]
  obtain ⟨taken, offset, -, split⟩ := outcomes_append (assemble (appendLines text more)).labels [] 0
    (sourceLines text.toList) (addedLines text more)
  exact ⟨taken, offset, split⟩

theorem outcomes_appendLines_completes :
    List.Forall₂ (Outcome.Completes (assemble text).labels (assemble (appendLines text more)).labels)
      (outcomes (assemble text).labels [] 0 (sourceLines text.toList))
      (outcomes (assemble (appendLines text more)).labels [] 0 (sourceLines text.toList)) :=
  outcomes_completes (labels_appendLines_extends text more) [] 0 _

theorem listing_before_appendLines : (assemble text).listing <+: (assemble (appendLines text more)).listing := by
  obtain ⟨taken, offset, split⟩ := outcomes_appendLines text more
  rw [assemble_listing_eq, assemble_listing_eq, split, List.flatMap_append,
    flatMap_entries_completes (outcomes_appendLines_completes text more)]
  exact List.prefix_append _ _

variable {text}

theorem diagnostic_line_le {d : Diagnostic} (h : d ∈ (assemble text).diagnostics) : d.line ≤ lineCount text := by
  rw [assemble_diagnostics_eq] at h
  obtain ⟨line, mem, number⟩ := line_of_outcomes_diagnostics h
  rw [sourceLines_splitOn] at mem
  have below := (number_of_mem_numberedLines mem).2
  rw [length_lineTokens] at below
  unfold lineCount
  omega

theorem exists_emission_of_unresolved {d : Diagnostic} (h : d ∈ (assemble text).diagnostics)
    (second : d.error.isUnresolved = true) :
    ∃ e ∈ emissions (assemble text).labels text, d ∈ e.unresolved (assemble text).labels := by
  have mem : d ∈ (assemble text).diagnostics.filter fun d => d.error.isUnresolved := List.mem_filter.mpr ⟨h, second⟩
  rw [filter_isUnresolved_diagnostics] at mem
  exact List.mem_flatMap.mp mem

theorem get?_of_unresolved {d : Diagnostic} {name : String} (h : d ∈ (assemble text).diagnostics)
    (error : d.error = .unresolvedLabel name) : (assemble text).labels.get? name = none := by
  obtain ⟨e, -, he⟩ := exists_emission_of_unresolved h (by rw [error]; rfl)
  obtain ⟨t, ht, rfl⟩ := List.mem_map.mp he
  cases error
  simpa using (List.mem_filter.mp ht).2

theorem Diagnostic.settled_eq_answeredBy {d : Diagnostic} (h : d ∈ (assemble text).diagnostics) :
    d.settled (assemble (appendLines text more)).labels = d.answeredBy more := by
  unfold Diagnostic.settled Diagnostic.answeredBy
  cases error : d.error with
  | unresolvedLabel name =>
    have names := labels_appendLines_names text more name
    rw [get?_of_unresolved h error] at names
    rw [Bool.eq_iff_iff, Option.isSome_iff_ne_none, decide_eq_true_iff, names]
    simp
  | _ => rfl

/-- On the lines of the first text, only the complaints go away that the second text answers. -/
theorem diagnostics_appendLines :
    ((assemble (appendLines text more)).diagnostics.filter fun d => d.line ≤ lineCount text) =
      (assemble text).diagnostics.filter fun d => !d.answeredBy more := by
  obtain ⟨taken, offset, split⟩ := outcomes_appendLines text more
  have same := flatMap_diagnostics_completes (outcomes_appendLines_completes text more)
  rw [← assemble_diagnostics_eq] at same
  have kept : ((assemble text).diagnostics.filter fun d => !d.settled (assemble (appendLines text more)).labels) =
      (assemble text).diagnostics.filter fun d => !d.answeredBy more :=
    List.filter_congr fun d hd => by rw [Diagnostic.settled_eq_answeredBy more hd]
  rw [assemble_diagnostics_eq, split, List.flatMap_append, List.filter_append, same, kept]
  have here : ∀ d ∈ (assemble text).diagnostics.filter fun d => !d.answeredBy more,
      decide (d.line ≤ lineCount text) = true := by
    intro d hd
    exact decide_eq_true (diagnostic_line_le (List.mem_filter.mp hd).1)
  have below : ∀ d ∈ (outcomes (assemble (appendLines text more)).labels taken offset (addedLines text more)).flatMap
      (Outcome.diagnostics (assemble (appendLines text more)).labels), ¬decide (d.line ≤ lineCount text) = true := by
    intro d hd
    obtain ⟨line, mem, number⟩ := line_of_outcomes_diagnostics hd
    have past := (number_of_mem_numberedLines mem).1
    rw [decide_eq_true_eq]
    omega
  rw [List.filter_eq_self.mpr here, List.filter_eq_nil_iff.mpr below, List.append_nil]

theorem mem_diagnostics_of_unresolved {e : Emission} {d : Diagnostic}
    (h : e ∈ emissions (assemble text).labels text) (hd : d ∈ e.unresolved (assemble text).labels) :
    d ∈ (assemble text).diagnostics := by
  obtain ⟨o, mem, ho⟩ := List.mem_filterMap.mp h
  rw [Outcome.emission?_eq_some.mp ho] at mem
  rw [assemble_diagnostics_eq]
  exact List.mem_flatMap.mpr ⟨_, mem, List.mem_append_right _ hd⟩

theorem emission_appendLines {e : Emission} (h : e ∈ emissions (assemble text).labels text) :
    ∃ later ∈ emissions (assemble (appendLines text more)).labels (appendLines text more),
      (Outcome.emits e).Completes (assemble text).labels (assemble (appendLines text more)).labels
        (.emits later) := by
  have emitted (later : Emission)
      (mem : .emits later ∈ outcomes (assemble (appendLines text more)).labels [] 0 (sourceLines text.toList)) :
      later ∈ emissions (assemble (appendLines text more)).labels (appendLines text more) := by
    obtain ⟨taken, offset, split⟩ := outcomes_appendLines text more
    refine List.mem_filterMap.mpr ⟨.emits later, ?_, rfl⟩
    rw [split]
    exact List.mem_append_left _ mem
  obtain ⟨o, mem, ho⟩ := List.mem_filterMap.mp h
  rw [Outcome.emission?_eq_some.mp ho] at mem
  obtain ⟨later, mem', completes⟩ := exists_of_forall₂_mem (outcomes_appendLines_completes text more) mem
  cases completes with
  | kept e same => exact ⟨e, emitted e mem', .kept e same⟩
  | filled e later t opcode address entry known waiting complete reported silenced =>
    exact ⟨later, emitted later mem', .filled e later t opcode address entry known waiting complete reported silenced⟩

theorem image_of_emission {e : Emission} (h : e ∈ emissions (assemble text).labels text) {k : Nat}
    (hk : k < windowSize) (from_ : e.offset ≤ k) (below : k < e.offset + e.instr.size) :
    some (assemble text).image[k] = e.instr.encode[k - e.offset]? := by
  have cell := image_emission h (show k - e.offset < e.instr.size by omega)
  rw [Nat.add_sub_cancel' from_] at cell
  rw [← cell]
  simp [hk]

/-- The images differ only where an answered complaint has left a word open. -/
theorem image_appendLines {k : Nat} (hk : k < windowSize) (inside : k < (assemble text).size)
    (closed : ∀ e ∈ (assemble text).listing, ∀ d ∈ (assemble text).diagnostics, d.line = e.line →
      d.answeredBy more = true → k ≠ e.offset + 1 ∧ k ≠ e.offset + 2) :
    (assemble (appendLines text more)).image[k] = (assemble text).image[k] := by
  obtain ⟨entry, listed, from_, below⟩ := (listing_tiles text).exists_covering (Nat.zero_le k) inside
  rw [assemble_listing] at listed
  obtain ⟨e, emitted, rfl⟩ := List.mem_map.mp listed
  dsimp only [Emission.entry] at from_ below
  have before := image_of_emission emitted hk from_ below
  obtain ⟨later, emitted', completes⟩ := emission_appendLines more emitted
  apply Option.some.inj
  cases completes with
  | kept => rw [before, image_of_emission emitted' hk from_ below]
  | filled e later t opcode address entry known waiting complete reported silenced =>
    have offset : later.offset = e.offset := congrArg Entry.offset entry
    have size : e.instr.size = 3 := Instr.size_of_encode waiting
    -- Where the word of an open entry is left out, its opcode remains.
    have first : k = e.offset := by
      have mem := mem_diagnostics_of_unresolved emitted (reported ▸ List.mem_singleton_self _)
      have answered := Diagnostic.settled_eq_answeredBy more mem
      simp only [Diagnostic.settled, known, Option.isSome_some] at answered
      obtain ⟨low, high⟩ := closed e.entry (assemble_listing text ▸ List.mem_map_of_mem emitted) _ mem rfl answered.symm
      dsimp only [Emission.entry] at low high
      omega
    have after := image_of_emission emitted' hk (Nat.le_of_eq (offset.trans first.symm))
      (by rw [Instr.size_of_encode complete, offset]; omega)
    rw [before, after, waiting, complete, offset, first, Nat.sub_self]
    rfl

theorem Image.slice_tail (image : Image) (start length : Nat) :
    image.slice (start + 1) length = (image.slice start (length + 1)).tail := by
  rw [Image.slice, Image.slice, ← List.drop_one, List.drop_take, List.drop_drop, Nat.add_sub_cancel]

/-- A complaint that the second text answers is about an open word, which the second text fills in. -/
theorem filled_appendLines {e : Entry} (listed : e ∈ (assemble text).listing) {d : Diagnostic}
    (reported : d ∈ (assemble text).diagnostics) (here : d.line = e.line) (answered : d.answeredBy more = true) :
    ∃ name address, d.error = .unresolvedLabel name ∧
      (assemble (appendLines text more)).labels.get? name = some address ∧
        (assemble (appendLines text more)).image.slice (e.offset + 1) 2 = [Word.low address, Word.high address] := by
  have second := Diagnostic.isUnresolved_of_answeredBy answered
  obtain ⟨emission, emitted, hd⟩ := exists_emission_of_unresolved reported second
  have own : e = emission.entry := by
    have ordered : (assemble text).listing.Pairwise fun e later => e.line < later.line := by
      rw [assemble_listing, List.pairwise_map]
      exact outcomes_ordered (sourceLines_ordered text.toList)
    refine eq_of_key_eq ordered listed (assemble_listing text ▸ List.mem_map_of_mem emitted) ?_
    obtain ⟨t, -, rfl⟩ := List.mem_map.mp hd
    exact here.symm
  subst own
  obtain ⟨later, emitted', completes⟩ := emission_appendLines more emitted
  rw [← Diagnostic.settled_eq_answeredBy more reported] at answered
  cases completes with
  | kept e same =>
    rw [← same] at hd
    rw [Emission.not_settled_of_mem hd] at answered
    cases answered
  | filled e later t opcode address entry known waiting complete reported silenced =>
    rw [reported] at hd
    cases List.mem_singleton.mp hd
    refine ⟨t.name, address, rfl, known, ?_⟩
    have bytes := bytes_entry emitted'
    rw [complete, Assembly.bytes, entry] at bytes
    have size : emission.entry.size = 2 + 1 := Instr.size_of_encode waiting
    rw [Image.slice_tail, ← size, bytes]
    rfl

/-- A line has one diagnostic at most, so nothing is reported where an answered complaint stood. -/
theorem silent_appendLines {d later : Diagnostic} (reported : d ∈ (assemble text).diagnostics)
    (answered : d.answeredBy more = true) (mem : later ∈ (assemble (appendLines text more)).diagnostics) :
    later.line ≠ d.line := by
  intro here
  have inside := diagnostic_line_le reported
  have kept : later ∈ (assemble (appendLines text more)).diagnostics.filter fun d => d.line ≤ lineCount text :=
    List.mem_filter.mpr ⟨mem, decide_eq_true (here ▸ inside)⟩
  rw [diagnostics_appendLines, List.mem_filter] at kept
  cases eq_of_key_eq (diagnostics_ordered text) kept.1 reported here
  rw [answered] at kept
  cases kept.2

end Append

/-- Source that follows changes nothing of what stands before it but the words that wait for its labels. -/
theorem assemble_appendLines (text more : String) :
    let before := assemble text
    let after := assemble (appendLines text more)
    before.listing <+: after.listing ∧ before.labels.toList <+: after.labels.toList ∧
      (after.diagnostics.filter fun d => d.line ≤ lineCount text ∧ d.error.isUnresolved = false) =
        (before.diagnostics.filter fun d => d.error.isUnresolved = false) ∧
      (after.diagnostics.filter fun d => d.line ≤ lineCount text ∧ d.error.isUnresolved = true) =
        (before.diagnostics.filter fun d => d.error.isUnresolved = true ∧ d.answeredBy more = false) ∧
      (∀ k (hk : k < windowSize), k < before.size →
        (∀ e ∈ before.listing, ∀ d ∈ before.diagnostics, d.line = e.line → d.answeredBy more = true →
          k ≠ e.offset + 1 ∧ k ≠ e.offset + 2) → after.image[k] = before.image[k]) ∧
      ∀ e ∈ before.listing, ∀ d ∈ before.diagnostics, d.line = e.line → d.answeredBy more = true →
        (∃ name address, d.error = .unresolvedLabel name ∧ after.labels.get? name = some address ∧
          after.image.slice (e.offset + 1) 2 = [Word.low address, Word.high address]) ∧
        ∀ later ∈ after.diagnostics, later.line ≠ e.line := by
  intro before after
  have kept (p : Diagnostic → Bool) : (after.diagnostics.filter fun d => d.line ≤ lineCount text && p d) =
      before.diagnostics.filter fun d => p d && !d.answeredBy more := by
    simp only [Bool.and_comm (decide _)]
    rw [← List.filter_filter, diagnostics_appendLines, List.filter_filter]
  refine ⟨listing_before_appendLines text more, labels_before_appendLines text more, ?_, ?_,
    fun k hk inside closed => image_appendLines more hk inside closed, ?_⟩
  · have first (d : Diagnostic) : (!d.error.isUnresolved && !d.answeredBy more) = !d.error.isUnresolved := by
      have second := @Diagnostic.isUnresolved_of_answeredBy more d
      cases h : d.answeredBy more <;> simp_all
    simpa [first] using kept fun d => !d.error.isUnresolved
  · simpa using kept fun d => d.error.isUnresolved
  · intro e listed d reported here answered
    refine ⟨filled_appendLines more listed reported here answered, fun later mem => ?_⟩
    exact here ▸ silent_appendLines more reported answered mem

/-- A jump to a label that only the appended line defines. -/
theorem assemble_appendLines_forward :
    let before := assemble "jmp b"
    let after := assemble (appendLines "jmp b" "b: hlt")
    let d : Diagnostic := ⟨⟨⟨4, 1⟩, .unresolvedLabel "b"⟩, 1⟩
    before.listing = [⟨1, ⟨0, 5⟩, 0, 3⟩] ∧ before.diagnostics = [d] ∧ d.answeredBy "b: hlt" = true ∧
      after.labels.get? "b" = some 0x803 ∧ after.image[0] = before.image[0] ∧ after.image.slice 1 2 = [0x03, 0x08] ∧
        ∀ later ∈ after.diagnostics, later.line ≠ 1 := by
  intro before after d
  have listing : before.listing = [⟨1, ⟨0, 5⟩, 0, 3⟩] := by decide +kernel
  have diagnostics : before.diagnostics = [d] := by
    rw [show before.diagnostics = _ from assemble_diagnostics_eq _]
    decide +kernel
  have answered : d.answeredBy "b: hlt" = true := by decide +kernel
  have label : after.labels.get? "b" = some 0x803 := by decide +kernel
  obtain ⟨-, -, -, -, image, filled⟩ := assemble_appendLines "jmp b" "b: hlt"
  have opcode : after.image[0] = before.image[0] := by
    refine image 0 (by decide) (by decide +kernel) fun e _ _ _ _ _ => ⟨?_, ?_⟩ <;> omega
  obtain ⟨⟨name, address, error, known, word⟩, silent⟩ := filled ⟨1, ⟨0, 5⟩, 0, 3⟩
    (listing ▸ List.mem_singleton_self _) d (diagnostics ▸ List.mem_singleton_self _) rfl answered
  cases error
  cases Option.some.inj (known.symm.trans label)
  exact ⟨listing, diagnostics, answered, label, opcode, word, silent⟩

end I8080
