import I8080.Proofs.Diagnostic
import I8080.Proofs.Layout
import I8080.Proofs.StepFault
import Mathlib.Algebra.GroupWithZero.Nat

namespace I8080

/-- Entries that stand one after the other, without a gap, from the offset `first` up to the offset `last`. -/
def Tiles : Nat → List Entry → Nat → Prop
  | first, [], last => first = last
  | first, e :: es, last => e.offset = first ∧ Tiles (first + e.size) es last

theorem Tiles.sum {first last : Nat} {es : List Entry} (h : Tiles first es last) :
    first + (es.map Entry.size).sum = last := by
  induction es generalizing first with
  | nil => exact h
  | cons e es ih =>
    have rest := ih h.2
    rw [List.map_cons, List.sum_cons]
    omega

theorem Tiles.getLast? {first last : Nat} {es : List Entry} {e : Entry} (h : Tiles first es last)
    (he : es.getLast? = some e) : e.offset + e.size = last := by
  induction es generalizing first with
  | nil => cases he
  | cons head es ih =>
    obtain ⟨start, rest⟩ := h
    cases es with
    | nil =>
      have only : head = e := by simpa using he
      have stop : first + head.size = last := rest
      rw [← only, start, stop]
    | cons next es => exact ih rest (by simpa using he)

theorem Assembly.size_of_tiles {a : Assembly} {last : Nat} (h : Tiles 0 a.listing last) : a.size = last := by
  unfold Assembly.size
  cases he : a.listing.getLast? with
  | none =>
    rw [List.getLast?_eq_none_iff.mp he] at h
    exact h
  | some e => exact h.getLast? he

theorem tiles_of_layout {first : Nat} {es : List Emission}
    (h : (es.map fun e => (e.offset, e.instr.size)) = layout first (es.map Emission.instr)) :
    Tiles first (es.map Emission.entry) (first + (es.flatMap fun e => e.instr.encode).length) := by
  induction es generalizing first with
  | nil => rfl
  | cons e es ih =>
    obtain ⟨place, rest⟩ := List.cons.inj h
    have tail := ih rest
    rw [List.flatMap_cons, List.length_append, Instr.length_encode, ← Nat.add_assoc]
    exact ⟨(Prod.mk.inj place).1, tail⟩

theorem listing_tiles_code (source : String) :
    Tiles 0 (assemble source).listing
      ((emissions (assemble source).labels source).flatMap fun e => e.instr.encode).length := by
  have tiles := tiles_of_layout (emissions_layout (assemble source).labels source)
  rwa [Nat.zero_add, ← assemble_listing] at tiles

theorem assemble_size (source : String) :
    (assemble source).size =
      ((emissions (assemble source).labels source).flatMap fun e => e.instr.encode).length :=
  Assembly.size_of_tiles (listing_tiles_code source)

theorem listing_tiles (source : String) : Tiles 0 (assemble source).listing (assemble source).size := by
  rw [assemble_size]
  exact listing_tiles_code source

theorem size_le_windowSize (source : String) : (assemble source).size ≤ windowSize := by
  rw [assemble_size]
  exact (Image.ofBytes?_eq_some_iff.mp (assemble_image source)).1

theorem image_eq_zero {source : String} {k : Nat} (hk : k < windowSize) (past : (assemble source).size ≤ k) :
    (assemble source).image[k] = 0 := by
  rw [assemble_size] at past
  rw [(Image.ofBytes?_eq_some_iff.mp (assemble_image source)).2 k hk, List.getD_eq_default _ _ past]

theorem Tiles.offset_append {first last : Nat} {before after : List Entry} {e : Entry}
    (h : Tiles first (before ++ e :: after) last) : e.offset = first + (before.map Entry.size).sum := by
  induction before generalizing first with
  | nil => exact h.1
  | cons head before ih =>
    have rest := ih h.2
    rw [List.map_cons, List.sum_cons]
    omega

theorem sum_size_entries (es : List Emission) :
    ((es.map Emission.entry).map Entry.size).sum = (es.flatMap fun e => e.instr.encode).length := by
  induction es with
  | nil => rfl
  | cons e es ih =>
    rw [List.map_cons, List.map_cons, List.sum_cons, ih, List.flatMap_cons, List.length_append,
      Instr.length_encode]
    rfl

/-- The bytes of an emitted instruction stand in the image at its offset. -/
theorem code_at {source : String} {e : Emission} (h : e ∈ emissions (assemble source).labels source) :
    ∃ before after, e.offset = before.length ∧
      (assemble source).image.toList = before ++ (e.instr.encode ++ after) := by
  obtain ⟨before, after, split⟩ := List.append_of_mem h
  have image := Image.toList_of_ofBytes? (assemble_image source)
  have tiles := listing_tiles_code source
  rw [assemble_listing, split, List.map_append, List.map_cons] at tiles
  have offset := tiles.offset_append
  rw [Nat.zero_add, sum_size_entries] at offset
  rw [split, zeroPadded, List.flatMap_append, List.flatMap_cons, List.append_assoc, List.append_assoc] at image
  exact ⟨_, _, offset, image⟩

theorem emission_fits {source : String} {e : Emission} (h : e ∈ emissions (assemble source).labels source) :
    e.offset + e.instr.size ≤ windowSize := by
  obtain ⟨before, after, offset, image⟩ := code_at h
  have length := congrArg List.length image
  rw [List.length_append, List.length_append, Instr.length_encode, Vector.length_toList] at length
  omega

theorem bytes_entry {source : String} {e : Emission} (h : e ∈ emissions (assemble source).labels source) :
    (assemble source).bytes e.entry = e.instr.encode := by
  obtain ⟨before, after, offset, image⟩ := code_at h
  simp only [Assembly.bytes, Image.slice, Emission.entry, image, offset, List.drop_left]
  rw [← Instr.length_encode, List.take_left]

theorem instr?_entry {source : String} {e : Emission} (h : e ∈ emissions (assemble source).labels source) :
    (assemble source).instr? e.entry = some e.instr := by
  have all := assemble_instr? source
  rw [assemble_listing, List.map_map, List.map_map] at all
  exact List.map_inj_left.mp all e h

/-- An instruction is decided by its own bytes, whatever stands after them. -/
theorem Machine.current?_of_encode {m : Machine} {i : Instr} (canonical : i.Canonical)
    (h : ∀ d, d < i.size → some (m.memory.wrapped (m.pc + d)) = i.encode[d]?) : m.current? = some i := by
  refine Instr.decode_eq_some_iff.mpr ⟨canonical, Eq.symm ?_⟩
  rw [m.take_bytes i.size_le]
  apply List.ext_getElem?
  intro d
  by_cases inside : d < i.size
  · simp [inside, h d inside]
  · have past : i.encode.length ≤ d := by
      rw [Instr.length_encode]
      omega
    simp [inside, past]

theorem image_emission {source : String} {e : Emission} (h : e ∈ emissions (assemble source).labels source)
    {d : Nat} (hd : d < e.instr.size) : (assemble source).image.toList[e.offset + d]? = e.instr.encode[d]? := by
  obtain ⟨before, after, offset, image⟩ := code_at h
  rw [← Instr.length_encode] at hd
  rw [image, offset, List.getElem?_append_right (Nat.le_add_right _ _), Nat.add_sub_cancel_left,
    List.getElem?_append_left hd]

theorem current?_emission {source : String} {e : Emission} (h : e ∈ emissions (assemble source).labels source)
    {m : Machine} (memory : m.memory = (assemble source).image) (pc : m.pc.val = e.offset) :
    m.current? = some e.instr := by
  refine Machine.current?_of_encode (emissions_canonical _ source _ (List.mem_map_of_mem h)) ?_
  intro d hd
  have fits := emission_fits h
  have inside : m.pc + d < windowSize := by omega
  have cell : some ((assemble source).image.wrapped (m.pc + d)) = (assemble source).image.toList[m.pc + d]? := by
    rw [Image.wrapped_of_lt _ inside]
    simp [inside]
  rw [memory, cell, pc, image_emission h hd]

/-- The listing is an exact map of the image, and what it shows is what the machine finds there. -/
theorem listing_maps_image (source : String) :
    Tiles 0 (assemble source).listing (assemble source).size ∧
      ((assemble source).listing.map Entry.size).sum = (assemble source).size ∧
      (assemble source).size ≤ windowSize ∧
      ((assemble source).listing.Pairwise fun e later => e.line < later.line) ∧
      (∀ k (hk : k < windowSize), (assemble source).size ≤ k → (assemble source).image[k] = 0) ∧
      ∀ e ∈ (assemble source).listing, ∃ i,
        (assemble source).instr? e = some i ∧ i.size = e.size ∧ i.encode = (assemble source).bytes e ∧
          ((Machine.ofImage (assemble source).image).goto e.offset).fetch = .ok i := by
  have sum := (listing_tiles source).sum
  rw [Nat.zero_add] at sum
  refine ⟨listing_tiles source, sum, size_le_windowSize source, ?_, fun k hk past => image_eq_zero hk past, ?_⟩
  · have ordered : (emissions (assemble source).labels source).Pairwise fun e later => e.line < later.line :=
      outcomes_ordered (sourceLines_ordered source.toList)
    rw [assemble_listing, List.pairwise_map]
    exact ordered
  · intro entry listed
    rw [assemble_listing] at listed
    obtain ⟨e, emitted, rfl⟩ := List.mem_map.mp listed
    refine ⟨e.instr, instr?_entry emitted, rfl, (bytes_entry emitted).symm, ?_⟩
    refine Machine.fetch_of_some (current?_emission emitted rfl ?_)
    have fits := emission_fits emitted
    have filled := e.instr.size_pos
    have inside : e.offset < windowSize := by omega
    exact Nat.mod_eq_of_lt inside

/-- A jump to a label that is only defined after it. -/
theorem listing_maps_image_forward :
    let a := assemble "jmp b\nb: hlt"
    a.listing = [⟨1, ⟨0, 5⟩, 0, 3⟩, ⟨2, ⟨9, 3⟩, 3, 1⟩] ∧
      ∃ i, a.instr? ⟨1, ⟨0, 5⟩, 0, 3⟩ = some i ∧ i.encode = a.bytes ⟨1, ⟨0, 5⟩, 0, 3⟩ ∧
        ((Machine.ofImage a.image).goto 0).fetch = .ok i := by
  intro a
  have listing : a.listing = [⟨1, ⟨0, 5⟩, 0, 3⟩, ⟨2, ⟨9, 3⟩, 3, 1⟩] := by decide +kernel
  obtain ⟨-, -, -, -, -, entries⟩ := listing_maps_image "jmp b\nb: hlt"
  obtain ⟨i, shown, -, bytes, fetch⟩ := entries ⟨1, ⟨0, 5⟩, 0, 3⟩ (by rw [listing]; exact List.mem_cons_self)
  exact ⟨listing, i, shown, bytes, fetch⟩

end I8080
