import I8080.Proofs.BlankLine
import I8080.Proofs.Diagnostic
import Mathlib.Data.List.Nodup

namespace I8080

/-- A pass that has come as far, after other diagnostics. -/
def Pass.behind (p : Pass) (earlier : Array Diagnostic) : Pass :=
  { p with diagnostics := earlier ++ p.diagnostics }

/-- Takes in the label of a line, if it is new. -/
def Pass.enter (p : Pass) (line : SourceLine) : Pass :=
  match line.label? with
  | none => p
  | some name =>
    match p.labels.insert? name.name (addressOf p.offset) with
    | none => p
    | some labels => { p with labels }

section Behind

variable (p : Pass) (earlier : Array Diagnostic)

theorem Pass.report_behind (line : Nat) (c : Complaint) :
    (p.behind earlier).report line c = (p.report line c).behind earlier := by
  simp [Pass.report, Pass.behind]

theorem Pass.emit_behind (line : Nat) (s : Statement) :
    (p.behind earlier).emit line s = (p.emit line s).map fun q => q.behind earlier := by
  cases hi : s.instr p.labels with
  | error c =>
    rw [Pass.emit_of_error hi]
    exact Pass.emit_of_error hi
  | ok i =>
    by_cases fits : p.offset + i.size ≤ windowSize
    · rw [Pass.emit_of_instr hi fits]
      exact Pass.emit_of_instr hi fits
    · rw [Pass.emit_of_overflow hi fits]
      exact Pass.emit_of_overflow hi fits

theorem Pass.settle_behind (line : SourceLine) :
    (p.behind earlier).settle line = (p.settle line).behind earlier := by
  unfold Pass.settle Pass.body
  cases line.body with
  | nil => rfl
  | cons head operands =>
    dsimp only
    cases Statement.ofTokens head operands with
    | error c => exact p.report_behind earlier line.number c
    | ok s =>
      cases he : p.emit line.number s with
      | error c => simp [bind, Except.bind, Pass.emit_behind, he, Except.map, Pass.report_behind]
      | ok q => simp [bind, Except.bind, Pass.emit_behind, he, Except.map]

theorem Pass.line_behind (line : SourceLine) :
    (p.behind earlier).line line = (p.line line).behind earlier := by
  rw [Pass.line_eq, Pass.line_eq]
  cases line.label? with
  | none => exact p.settle_behind earlier line
  | some name =>
    dsimp only [Pass.behind]
    cases p.labels.insert? name.name (addressOf p.offset) with
    | none => exact p.report_behind earlier line.number _
    | some labels => exact Pass.settle_behind { p with labels } earlier line

theorem Pass.foldl_line_behind (lines : List SourceLine) :
    lines.foldl Pass.line (p.behind earlier) = (lines.foldl Pass.line p).behind earlier :=
  List.foldl_hom (Pass.behind · earlier) fun q line => Pass.line_behind q earlier line

end Behind

/-- What lines come to does not depend on what has been reported before them. -/
theorem Pass.foldl_line_diagnostics (p : Pass) (lines : List SourceLine) :
    lines.foldl Pass.line p =
      (lines.foldl Pass.line { p with diagnostics := #[] }).behind p.diagnostics := by
  have first : Pass.behind { p with diagnostics := #[] } p.diagnostics = p := by simp [Pass.behind]
  rw [← Pass.foldl_line_behind, first]

/-- A line that fails leaves its label and nothing else but the diagnostic. -/
theorem Pass.line_cases (p : Pass) (line : SourceLine) :
    (∃ c, p.line line = (p.enter line).report line.number c) ∨ (p.line line).diagnostics = p.diagnostics := by
  have settled : ∀ q : Pass, (∃ c, q.settle line = q.report line.number c) ∨
      (q.settle line).diagnostics = q.diagnostics := by
    intro q
    rcases q.settle_cases line with fails | bare | ⟨s, -, emits⟩
    · exact .inl fails
    · rw [bare]
      exact .inr rfl
    · obtain ⟨i, -, -, emitted⟩ := Pass.emit_eq_ok emits
      rw [emitted]
      exact .inr rfl
  rw [Pass.line_eq, Pass.enter]
  cases line.label? with
  | none => exact settled p
  | some name =>
    dsimp only
    cases p.labels.insert? name.name (addressOf p.offset) with
    | none => exact .inl ⟨_, rfl⟩
    | some labels => exact settled { p with labels }

theorem Pass.exists_of_mem_diagnostics {p : Pass} {lines : List SourceLine} {d : Diagnostic}
    (h : d ∈ (lines.foldl Pass.line p).diagnostics) :
    d ∈ p.diagnostics ∨ ∃ before line after c, lines = before ++ line :: after ∧
      (before.foldl Pass.line p).line line = ((before.foldl Pass.line p).enter line).report line.number c ∧
        d = { c with line := line.number } := by
  induction lines generalizing p with
  | nil => exact .inl h
  | cons line lines ih =>
    rcases ih h with first | ⟨before, failing, after, c, rfl, fails, hd⟩
    · rcases p.line_cases line with ⟨c, fails⟩ | same
      · rw [fails] at first
        have labelled : (p.enter line).diagnostics = p.diagnostics := by
          unfold Pass.enter
          split
          next => rfl
          next => split <;> rfl
        rcases Array.mem_push.mp first with old | new
        · exact .inl (labelled ▸ old)
        · exact .inr ⟨[], line, lines, c, rfl, fails, new⟩
      · rw [same] at first
        exact .inl first
    · exact .inr ⟨line :: before, failing, after, c, rfl, fails, hd⟩

theorem Pass.names_line (p : Pass) (line : SourceLine) (name : String) :
    (p.line line).labels.get? name ≠ none ↔ p.labels.get? name ≠ none ∨ name ∈ line.names := by
  rw [Pass.line_eq, SourceLine.names]
  cases line.label? with
  | none => simp [Pass.labels_settle]
  | some label =>
    dsimp only
    cases h : p.labels.insert? label.name (addressOf p.offset) with
    | none =>
      have known := LabelTable.insert?_eq_none_iff.mp h
      rw [Option.toList_some, List.map_singleton, List.mem_singleton]
      constructor
      · exact .inl
      · rintro (old | rfl)
        · exact old
        · exact known
    | some labels =>
      dsimp only
      rw [Pass.labels_settle, LabelTable.get?_insert? h]
      by_cases same : name = label.name <;> simp [same]

theorem Pass.names_foldl_line (p : Pass) (lines : List SourceLine) (name : String) :
    (lines.foldl Pass.line p).labels.get? name ≠ none ↔
      p.labels.get? name ≠ none ∨ name ∈ lines.flatMap SourceLine.names := by
  induction lines generalizing p with
  | nil => simp
  | cons line lines ih => rw [List.foldl_cons, ih, Pass.names_line, List.flatMap_cons, List.mem_append, or_assoc]

theorem Pass.line_of_label {p : Pass} {line other : SourceLine} {name : Token} (label : line.label? = some name)
    (otherLabel : other.label? = some name) (bare : other.body = []) (fresh : p.labels.get? name.name = none) :
    p.line other = p.enter line := by
  rw [Pass.line_eq, Pass.enter, label, otherLabel]
  dsimp only
  cases h : p.labels.insert? name.name (addressOf p.offset) with
  | none => exact absurd fresh (LabelTable.insert?_eq_none_iff.mp h)
  | some labels =>
    simp only [Pass.settle, Pass.body, bare]

/-- A line blanked out leaves the label that the line would leave, and nothing else. -/
theorem Pass.foldl_blankOut {earlier : List (List Char)} {text : List Char} {line : SourceLine} {p : Pass}
    {number start : Nat} (single : '\n' ∉ text) (hl : numberedLines number [tokenizeFrom start text] = [line])
    (known : ∀ name, p.labels.get? name ≠ none ↔ name ∈ labelNames (['\n'].intercalate earlier)) :
    (numberedLines number [tokenizeFrom start (blankOut earlier text)]).foldl Pass.line p = p.enter line := by
  have names : labelNames text = line.names := by
    rw [labelNames_line single start number, hl, List.flatMap_singleton]
  have tokens : line.tokens = (tokenizeFrom start text).filter Token.isMeaningful := by
    rw [numberedLines_single] at hl
    split at hl
    next => cases hl
    next =>
      cases hl
      rfl
  cases new : introduces earlier text with
  | true =>
    -- The label and its colon are all the tokens that are left.
    obtain ⟨head, tail, rfl, first, cut⟩ := cut_of_introduces single new
    obtain ⟨name, mem, fresh⟩ := List.any_eq_true.mp new
    rw [names] at mem
    obtain ⟨label, hlabel, rfl⟩ := List.mem_map.mp mem
    have hlabel := Option.mem_toList.mp hlabel
    obtain ⟨colon, rest, split, ident, hc⟩ := SourceLine.label?_eq_some hlabel
    have kept := meaningful_label first single (tokens.symm.trans split) ident hc (byteLength tail)
    rw [cut, blanks, numberedLines_single, kept]
    have unknown : p.labels.get? label.name = none := by
      by_contra h
      exact of_decide_eq_true fresh ((known _).mp h)
    have otherLabel : SourceLine.label? ⟨number, [label, colon]⟩ = some label := by
      simp [SourceLine.label?, ident, hc]
    refine Pass.line_of_label hlabel otherLabel ?_ unknown
    rw [SourceLine.body, otherLabel]
    rfl
  | false =>
    -- Nothing is left, and a label that the line may have is not new.
    have silent : numberedLines number [tokenizeFrom start (blankOut earlier text)] = [] := by
      rw [blankOut, new, blanks, numberedLines_single]
      exact if_pos (meaningful_blanks start _)
    rw [silent, List.foldl_nil, Pass.enter]
    cases label : line.label? with
    | none => rfl
    | some name =>
      have old : name.name ∈ labelNames (['\n'].intercalate earlier) := by
        have mem : name.name ∈ labelNames text := by
          rw [names, SourceLine.names, label]
          exact List.mem_singleton_self _
        simpa using List.any_eq_false.mp new name.name mem
      have taken : p.labels.insert? name.name (addressOf p.offset) = none :=
        LabelTable.insert?_eq_none_iff.mpr ((known name.name).mpr old)
      simp only [taken]

theorem sourceLines_nodup (text : List Char) : (sourceLines text).Nodup := by
  refine (sourceLines_ordered text).imp ?_
  rintro line next lt rfl
  exact Nat.lt_irrefl _ lt

theorem assemble_of_behind {source other : String} {p : Pass} {earlier : Array Diagnostic} {d : Diagnostic}
    (h : firstPass source = p.behind (earlier.push d)) (h' : firstPass other = p.behind earlier) :
    (assemble other).image = (assemble source).image ∧ (assemble other).labels = (assemble source).labels ∧
      (assemble other).listing = (assemble source).listing ∧
        (assemble other).diagnostics = (assemble source).diagnostics.erase d := by
  have perm : (assemble source).diagnostics.Perm (d :: (assemble other).diagnostics) := by
    simp only [assemble_eq, h, h', Pass.behind]
    refine (List.mergeSort_perm _ _).trans (.trans ?_ ((List.mergeSort_perm _ _).symm.cons d))
    simp
  refine ⟨?_, ?_, ?_, ?_⟩
  · simp only [assemble_eq, h, h', Pass.behind]
  · simp only [assemble_eq, h, h', Pass.behind]
  · simp only [assemble_eq, h, h', Pass.behind]
  · have rest := (List.cons_perm_iff_perm_erase.mp perm.symm).2
    have ordered := (diagnostics_ordered source).sublist (List.erase_sublist (a := d))
    refine rest.eq_of_pairwise ?_ (diagnostics_ordered other) ordered
    intro e f _ _ lt gt
    omega

theorem firstPass_blankLine {source : String} {earlier later : List (List Char)} {text : List Char}
    {line : SourceLine} {q : Pass} {c : Complaint} (split : source.toList.splitOn '\n' = earlier ++ text :: later)
    (hline : numberedLines (earlier.length + 1) [tokenizeFrom (lineStart 0 earlier) text] = [line])
    (reached : (sourceLines (['\n'].intercalate earlier)).foldl Pass.line {} = q)
    (fails : q.line line = (q.enter line).report line.number c) :
    ∃ p before, firstPass source = Pass.behind p (before.push { c with line := line.number }) ∧
      firstPass (blankLine source (earlier.length + 1)) = Pass.behind p before := by
  have free : ∀ l ∈ earlier ++ text :: later, '\n' ∉ l := fun l hl => not_mem_of_mem_splitOn (split ▸ hl)
  have single : '\n' ∉ text := free text (List.mem_append_right _ List.mem_cons_self)
  have otherFree : ∀ l ∈ earlier ++ blankOut earlier text :: later, '\n' ∉ l := by
    intro l hl
    rcases List.mem_append.mp hl with above | hl
    · exact free l (List.mem_append_left _ above)
    · rcases List.mem_cons.mp hl with rfl | below
      · exact newline_not_mem_blankOut single earlier
      · exact free l (List.mem_append_right _ (List.mem_cons_of_mem _ below))
  have known : ∀ name, q.labels.get? name ≠ none ↔ name ∈ labelNames (['\n'].intercalate earlier) := by
    intro name
    rw [← reached, Pass.names_foldl_line, LabelTable.get?_empty, labelNames]
    simp
  have joined : ['\n'].intercalate (earlier ++ text :: later) = source.toList := by
    rw [← split, List.intercalate_splitOn]
  -- Both passes take in the same lines before it and after it, and go on from states that differ in what it reports.
  let rest := numberedLines (earlier.length + 2) (lineTokens (lineStart 0 earlier + byteLength text + 1) later)
  refine ⟨rest.foldl Pass.line { q.enter line with diagnostics := #[] }, (q.enter line).diagnostics, ?_, ?_⟩
  · rw [firstPass, ← joined, sourceLines_around free, hline, List.foldl_append, reached, List.foldl_append,
      List.foldl_cons, List.foldl_nil, fails]
    exact Pass.foldl_line_diagnostics _ rest
  · rw [firstPass, toList_blankLine split, sourceLines_around otherFree, List.foldl_append, reached,
      List.foldl_append, Pass.foldl_blankOut single hline known, byteLength_blankOut single]
    exact Pass.foldl_line_diagnostics _ rest

/-- A line that fails in the first pass has no effect on any other. -/
theorem assemble_blankLine (source : String) (d : Diagnostic) (reported : d ∈ (assemble source).diagnostics)
    (first : d.error.isUnresolved = false) :
    let rest := assemble (blankLine source d.line)
    rest.image = (assemble source).image ∧ rest.labels = (assemble source).labels ∧
      rest.listing = (assemble source).listing ∧
        rest.diagnostics = (assemble source).diagnostics.erase d := by
  have failed : d ∈ (firstPass source).diagnostics := by
    rw [assemble_eq] at reported
    dsimp only at reported
    rw [List.mem_mergeSort, List.mem_append] at reported
    rcases reported with failed | unresolved
    · exact Array.mem_toList_iff.mp failed
    · obtain ⟨f, -, rfl⟩ := List.mem_map.mp unresolved
      cases first
  obtain old | ⟨before, line, after, c, hlines, fails, rfl⟩ := Pass.exists_of_mem_diagnostics failed
  · exact absurd old (Array.not_mem_empty _)
  have free : ∀ text ∈ source.toList.splitOn '\n', '\n' ∉ text := fun text h => not_mem_of_mem_splitOn h
  have joined : ['\n'].intercalate (source.toList.splitOn '\n') = source.toList := List.intercalate_splitOn '\n'
  have mem : line ∈ numberedLines 1 (lineTokens 0 (source.toList.splitOn '\n')) := by
    rw [← sourceLines_splitOn, hlines]
    exact List.mem_append_right _ List.mem_cons_self
  obtain ⟨earlier, text, later, split, hline⟩ := exists_of_mem_numberedLines mem
  rw [Nat.add_comm] at hline
  have number : line.number = earlier.length + 1 := by
    rw [numberedLines_single] at hline
    split at hline
    next => cases hline
    next =>
      cases hline
      rfl
  -- The lines before the failing one are those of the text before it.
  rw [split] at free joined
  have around := sourceLines_around free
  rw [joined, hline, hlines] at around
  have once := sourceLines_nodup source.toList
  rw [hlines, List.nodup_middle, List.nodup_cons, List.mem_append, not_or] at once
  obtain ⟨rfl, -, -⟩ := (List.append_cons_inj_of_notMem once.1.1 once.1.2).mp around
  obtain ⟨p, earlierDiagnostics, h, h'⟩ := firstPass_blankLine split hline rfl fails
  rw [← number] at h'
  exact assemble_of_behind h h'

theorem assemble_blankLine_label :
    let source := "a: ?"
    let d : Diagnostic := ⟨⟨⟨3, 1⟩, .unexpectedToken "?"⟩, 1⟩
    let rest := assemble "a:  "
    d ∈ (assemble source).diagnostics ∧ d.error.isUnresolved = false ∧ blankLine source d.line = "a:  " ∧
      rest.image = (assemble source).image ∧ rest.labels = (assemble source).labels ∧
        rest.listing = (assemble source).listing ∧
          rest.diagnostics = (assemble source).diagnostics.erase d := by
  intro source d rest
  have text : source.toList = ['a', ':', ' ', '?'] := by decide
  have lines : sourceLines ['a', ':', ' ', '?'] =
      [⟨1, [⟨.ident, ['a'], 0⟩, ⟨.colon, [':'], 1⟩, ⟨.unknown, ['?'], 3⟩]⟩] := by
    rw [sourceLines, tokenize]
    simp +decide [tokenizeFrom_cons, tokenizeFrom_nil, Token.opening, isSeparator, isIdentRest, splitLines,
      Token.isMeaningful]
  have reported : d ∈ (assemble source).diagnostics := by
    rw [assemble_eq]
    dsimp only
    rw [List.mem_mergeSort, List.mem_append, firstPass, text, lines]
    left
    simp [Pass.line, SourceLine.label?, Pass.define, LabelTable.insert?, LabelTable.get?, Pass.body,
      SourceLine.body, Statement.ofTokens, Pass.report, bind, Except.bind]
    rfl
  have blanked : blankLine source d.line = "a:  " := by
    have new : introduces [] ['a', ':', ' ', '?'] = true := by
      have none : sourceLines [] = [] := by simp [sourceLines, tokenize, tokenizeFrom_nil, splitLines]
      simp [introduces, labelNames, lines, none, SourceLine.names, SourceLine.label?]
    have split : source.toList.splitOn '\n' = [['a', ':', ' ', '?']] := by decide
    simp [blankLine, split, d, blankOut, new]
    decide
  have isolated := assemble_blankLine source d reported rfl
  rw [blanked] at isolated
  exact ⟨reported, rfl, blanked, isolated⟩

end I8080
