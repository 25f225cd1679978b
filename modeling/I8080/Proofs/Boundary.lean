import I8080.Proofs.Listing

namespace I8080

/-- Offsets at which an instruction of the assembly starts, and all those past its code. -/
def Assembly.Boundary (a : Assembly) (offset : Nat) : Prop :=
  (∃ e ∈ a.listing, e.offset = offset) ∨ a.size ≤ offset

theorem Tiles.next {first last : Nat} {es : List Entry} {e : Entry} (h : Tiles first es last) (mem : e ∈ es) :
    (∃ next ∈ es, next.offset = e.offset + e.size) ∨ e.offset + e.size = last := by
  induction es generalizing first with
  | nil => cases mem
  | cons head es ih =>
    obtain ⟨start, rest⟩ := h
    rcases List.mem_cons.mp mem with rfl | later
    · rw [start]
      cases es with
      | nil => exact .inr rest
      | cons next es => exact .inl ⟨next, by simp, rest.1⟩
    · rcases ih rest later with ⟨next, listed, follows⟩ | stop
      · exact .inl ⟨next, List.mem_cons_of_mem _ listed, follows⟩
      · exact .inr stop

theorem boundary_past {source : String} {e : Entry} (h : e ∈ (assemble source).listing) :
    (assemble source).Boundary (e.offset + e.size) := by
  rcases (listing_tiles source).next h with next | stop
  · exact .inl next
  · exact .inr (Nat.le_of_eq stop.symm)

theorem boundary_zero (source : String) : (assemble source).Boundary 0 := by
  have tiles := listing_tiles source
  unfold Assembly.Boundary
  cases hl : (assemble source).listing with
  | nil =>
    rw [hl] at tiles
    exact .inr (Nat.le_of_eq tiles.symm)
  | cons e es =>
    rw [hl] at tiles
    exact .inl ⟨e, List.mem_cons_self, tiles.1⟩

/-- Counting on past the end of the window comes to its start, where the first instruction is. -/
theorem boundary_wrap {source : String} {n : Nat} (h : (assemble source).Boundary n) (inside : n ≤ windowSize) :
    (assemble source).Boundary (Offset.wrap n).val := by
  rcases Nat.lt_or_eq_of_le inside with lt | rfl
  · have same : (Offset.wrap n).val = n := Nat.mod_eq_of_lt lt
    rwa [same]
  · exact boundary_zero source

/-- Every label stands where an instruction has been put, or where the next one goes. -/
def Pass.Aligned (p : Pass) : Prop :=
  ∀ name address, p.labels.get? name = some address →
    ∃ offset, address = addressOf offset ∧ (offset = p.offset ∨ ∃ e ∈ p.listing.toList, e.offset = offset)

/-- What a line holds after its label goes to where the label stands, if it goes anywhere. -/
theorem Pass.settle_places (p : Pass) (line : SourceLine) :
    ((p.settle line).offset = p.offset ∧ (p.settle line).listing = p.listing) ∨
      ∃ e : Entry, e.line = line.number ∧ e.offset = p.offset ∧ p.offset + e.size ≤ windowSize ∧
        (p.settle line).offset = p.offset + e.size ∧ (p.settle line).listing = p.listing.push e := by
  rcases p.settle_cases line with ⟨c, fails⟩ | bare | ⟨s, -, emits⟩
  · rw [fails]
    exact .inl ⟨rfl, rfl⟩
  · rw [bare]
    exact .inl ⟨rfl, rfl⟩
  · obtain ⟨i, -, fits, emitted⟩ := Pass.emit_eq_ok emits
    rw [emitted, i.length_encode]
    exact .inr ⟨⟨line.number, s.span, p.offset, i.size⟩, rfl, rfl, fits, rfl, rfl⟩

namespace Pass.Aligned

variable {p : Pass}

theorem settle (h : p.Aligned) (line : SourceLine) : (p.settle line).Aligned := by
  intro name address known
  rw [Pass.labels_settle] at known
  obtain ⟨offset, rfl, place⟩ := h name address known
  refine ⟨offset, rfl, ?_⟩
  rcases p.settle_places line with ⟨same, kept⟩ | ⟨e, -, at_offset, -, -, pushed⟩
  · rwa [same, kept]
  · refine .inr ?_
    rw [pushed, Array.toList_push]
    rcases place with rfl | ⟨old, listed, there⟩
    · exact ⟨e, by simp, at_offset⟩
    · exact ⟨old, List.mem_append_left _ listed, there⟩

theorem define (h : p.Aligned) {name : String} {labels : LabelTable}
    (hn : p.labels.insert? name (addressOf p.offset) = some labels) : Pass.Aligned { p with labels } := by
  intro query address known
  rw [LabelTable.get?_insert? hn] at known
  split at known
  next => exact ⟨p.offset, (Option.some.inj known).symm, .inl rfl⟩
  next => exact h query address known

/-- A label that a failing line defines is kept, and stands where the next instruction goes. -/
theorem line (h : p.Aligned) (line : SourceLine) : (p.line line).Aligned := by
  rw [Pass.line_eq]
  cases line.label? with
  | none => exact h.settle line
  | some name =>
    dsimp only
    cases hn : p.labels.insert? name.name (addressOf p.offset) with
    | none => exact h
    | some labels => exact (h.define hn).settle line

theorem foldl_line (h : p.Aligned) (lines : List SourceLine) : (lines.foldl Pass.line p).Aligned := by
  induction lines generalizing p with
  | nil => exact h
  | cons line lines ih => exact ih (h.line line)

end Pass.Aligned

theorem firstPass_aligned (source : String) : (firstPass source).Aligned := by
  refine Pass.Aligned.foldl_line ?_ _
  intro name address known
  rw [LabelTable.get?_empty] at known
  cases known

theorem firstPass_offset (source : String) : (firstPass source).offset = (assemble source).size := by
  obtain ⟨_, tracks⟩ := firstPass_tracks source
  rw [tracks.offset, assemble_size, emissions, flatMap_bytes_eq]

theorem listing_firstPass (source : String) : (firstPass source).listing.toList = (assemble source).listing := by
  rw [assemble_eq]

theorem labels_firstPass (source : String) : (firstPass source).labels = (assemble source).labels := by
  rw [assemble_eq]

theorem entry_offset_le {source : String} {e : Entry} (h : e ∈ (assemble source).listing) :
    e.offset ≤ windowSize := by
  rw [assemble_listing] at h
  obtain ⟨emission, emitted, rfl⟩ := List.mem_map.mp h
  exact Nat.le_of_add_right_le (emission_fits emitted)

theorem label_boundary {source : String} {name : String} {address : UInt16}
    (known : (assemble source).labels.get? name = some address) :
    ∃ offset, offset ≤ windowSize ∧ address = addressOf offset ∧ (assemble source).Boundary offset := by
  rw [← labels_firstPass] at known
  obtain ⟨offset, rfl, place⟩ := firstPass_aligned source name address known
  rw [firstPass_offset, listing_firstPass] at place
  rcases place with rfl | ⟨e, listed, rfl⟩
  · exact ⟨_, size_le_windowSize source, rfl, .inr (Nat.le_refl _)⟩
  · exact ⟨_, entry_offset_le listed, rfl, .inl ⟨e, listed, rfl⟩⟩

end I8080
