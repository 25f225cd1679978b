import I8080.Proofs.Pass

namespace I8080

theorem Pass.foldl_resolve (p : Pass) (fixups : List Fixup) :
    fixups.foldl Pass.resolve p = { p with
      image := fixups.foldl (Image.fill p.labels) p.image
      diagnostics := p.diagnostics ++
        ((fixups.filter fun f => (p.labels.get? f.name).isNone).map Fixup.diagnostic).toArray } := by
  induction fixups generalizing p with
  | nil => simp
  | cons f fixups ih =>
    rw [List.foldl_cons, List.foldl_cons, ih]
    unfold Pass.resolve Image.fill
    cases hf : p.labels.get? f.name with
    | some address => simp [hf]
    | none => simp [hf, Pass.report, Fixup.diagnostic]

/-- The state of the assembler when it has read all lines. -/
def firstPass (source : String) : Pass :=
  (sourceLines source.toList).foldl Pass.line {}

theorem assemble_eq (source : String) :
    assemble source =
      { image := (firstPass source).fixups.toList.foldl (Image.fill (firstPass source).labels)
          (firstPass source).image
        diagnostics := ((firstPass source).diagnostics.toList ++
            ((firstPass source).fixups.toList.filter fun f =>
              ((firstPass source).labels.get? f.name).isNone).map Fixup.diagnostic).mergeSort
          fun d e => d.line ≤ e.line
        listing := (firstPass source).listing.toList
        labels := (firstPass source).labels } := by
  have last := (firstPass source).foldl_resolve (firstPass source).fixups.toList
  rw [Array.foldl_toList] at last
  unfold assemble
  rw [← firstPass]
  dsimp only
  rw [last]
  simp

theorem firstPass_tracks (source : String) :
    ∃ taken, (firstPass source).Tracks (assemble source).labels taken
      (outcomes (assemble source).labels [] 0 (sourceLines source.toList)) := by
  rw [assemble_eq]
  obtain ⟨taken, h⟩ := (Pass.tracks_start _).foldl_line (sourceLines source.toList) (.refl _)
  exact ⟨taken, h⟩

theorem assemble_image (source : String) :
    Image.ofBytes? ((emissions (assemble source).labels source).flatMap fun e => e.instr.encode) =
      some (assemble source).image := by
  obtain ⟨_, h⟩ := firstPass_tracks source
  rw [emissions, ← flatMap_bytes_eq, h.image]
  simp only [assemble_eq]

theorem assemble_listing (source : String) :
    (assemble source).listing = (emissions (assemble source).labels source).map Emission.entry := by
  obtain ⟨_, h⟩ := firstPass_tracks source
  rw [emissions, ← h.listing]
  simp only [assemble_eq]

theorem assemble_diagnostics (source : String) :
    (assemble source).diagnostics =
      ((outcomes (assemble source).labels [] 0 (sourceLines source.toList)).filterMap Outcome.diagnostic? ++
        (emissions (assemble source).labels source).flatMap fun e =>
          e.unresolved (assemble source).labels).mergeSort fun d e => d.line ≤ e.line := by
  obtain ⟨_, h⟩ := firstPass_tracks source
  rw [emissions, ← flatMap_unresolved_eq, ← h.unresolved, ← h.diagnostics]
  simp only [assemble_eq]

end I8080
