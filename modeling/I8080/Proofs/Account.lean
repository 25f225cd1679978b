import I8080.Proofs.Diagnostic

namespace I8080

/-- What is reported about a source line. -/
def Assembly.diagnosticsAt (a : Assembly) (line : SourceLine) : List Diagnostic :=
  a.diagnostics.filter fun d => d.line = line.number

/-- What is listed for a source line. -/
def Assembly.entriesAt (a : Assembly) (line : SourceLine) : List Entry :=
  a.listing.filter fun e => e.line = line.number

/-- What an assembly lists and reports for a source line, where earlier lines have defined the names `taken`:
a diagnostic if it defines one of them again, nothing if nothing follows its label, and otherwise either a
diagnostic of the first pass or an entry, which may refer to a label that is never defined. -/
inductive Assembly.Accounts (a : Assembly) (taken : List String) (line : SourceLine) : Prop
  | duplicate (name : Token) (label : line.label? = some name) (old : name.name ∈ taken)
      (reported : a.diagnosticsAt line = [⟨⟨name.span, .duplicateLabel name.name⟩, line.number⟩])
      (unlisted : a.entriesAt line = [])
  | empty (new : ∀ name ∈ line.names, name ∉ taken) (bare : line.body = [])
      (unreported : a.diagnosticsAt line = []) (unlisted : a.entriesAt line = [])
  | failed (d : Diagnostic) (new : ∀ name ∈ line.names, name ∉ taken) (stated : line.body ≠ [])
      (reported : a.diagnosticsAt line = [d]) (first : d.error.isUnresolved = false)
      (unlisted : a.entriesAt line = [])
  | emitted (e : Entry) (new : ∀ name ∈ line.names, name ∉ taken) (stated : line.body ≠ [])
      (listed : a.entriesAt line = [e]) (single : (a.diagnosticsAt line).length ≤ 1)
      (second : ∀ d ∈ a.diagnosticsAt line, d.error.isUnresolved = true)

theorem outcomes_append (labels : LabelTable) (taken : List String) (offset : Nat) (lines more : List SourceLine) :
    ∃ taken' offset', (∀ name, name ∈ taken' ↔ name ∈ taken ∨ name ∈ lines.flatMap SourceLine.names) ∧
      outcomes labels taken offset (lines ++ more) =
        outcomes labels taken offset lines ++ outcomes labels taken' offset' more := by
  induction lines generalizing taken offset with
  | nil => exact ⟨taken, offset, by simp, rfl⟩
  | cons line lines ih =>
    obtain ⟨taken', offset', names, rest⟩ :=
      ih (line.names ++ taken) (offset + (line.outcome labels taken offset).bytes.length)
    refine ⟨taken', offset', ?_, ?_⟩
    · intro name
      rw [names, List.mem_append, List.flatMap_cons, List.mem_append]
      tauto
    · rw [List.cons_append, outcomes, outcomes, rest, List.cons_append]

/-- The diagnostics of both passes, sorted by line, are those of the lines in turn. -/
theorem assemble_diagnostics_eq (source : String) :
    (assemble source).diagnostics =
      (outcomes (assemble source).labels [] 0 (sourceLines source.toList)).flatMap
        (Outcome.diagnostics (assemble source).labels) := by
  refine (diagnostics_perm source).eq_of_pairwise ?_ (diagnostics_ordered source)
    (outcomes_diagnostics_ordered (sourceLines_ordered source.toList))
  intro d e _ _ lt gt
  omega

theorem filter_between {α : Type} {number : α → Nat} {n : Nat} {before here after : List α}
    (above : ∀ a ∈ before, number a < n) (at_n : ∀ a ∈ here, number a = n) (below : ∀ a ∈ after, n < number a) :
    (before ++ (here ++ after)).filter (fun a => number a = n) = here := by
  have none_above : before.filter (fun a => number a = n) = [] :=
    List.filter_eq_nil_iff.mpr fun a mem => by simpa using Nat.ne_of_lt (above a mem)
  have none_below : after.filter (fun a => number a = n) = [] :=
    List.filter_eq_nil_iff.mpr fun a mem => by simpa using Nat.ne_of_gt (below a mem)
  have all : here.filter (fun a => number a = n) = here :=
    List.filter_eq_self.mpr fun a mem => by simpa using at_n a mem
  rw [List.filter_append, List.filter_append, none_above, none_below, all, List.nil_append, List.append_nil]

def Outcome.entries (o : Outcome) : List Entry :=
  (o.emission?.map Emission.entry).toList

theorem map_entry_filterMap (os : List Outcome) :
    (os.filterMap Outcome.emission?).map Emission.entry = os.flatMap Outcome.entries := by
  rw [List.map_filterMap, List.filterMap_eq_flatMap_toList]
  rfl

theorem assemble_listing_eq (source : String) :
    (assemble source).listing =
      (outcomes (assemble source).labels [] 0 (sourceLines source.toList)).flatMap Outcome.entries := by
  rw [assemble_listing, emissions, map_entry_filterMap]

theorem Outcome.mem_entries_iff {o : Outcome} {e : Entry} :
    e ∈ o.entries ↔ ∃ emission, o = .emits emission ∧ emission.entry = e := by
  cases o <;> simp [Outcome.entries, Outcome.emission?, eq_comm]

theorem SourceLine.line_of_entries {line : SourceLine} {labels : LabelTable} {taken : List String} {offset : Nat}
    {e : Entry} (h : e ∈ (line.outcome labels taken offset).entries) : e.line = line.number := by
  obtain ⟨emission, emits, rfl⟩ := Outcome.mem_entries_iff.mp h
  exact SourceLine.outcome_line emits

theorem line_of_outcomes_entries {labels : LabelTable} {taken : List String} {offset : Nat}
    {lines : List SourceLine} {e : Entry}
    (h : e ∈ (outcomes labels taken offset lines).flatMap Outcome.entries) :
    ∃ line ∈ lines, e.line = line.number := by
  obtain ⟨o, mem, he⟩ := List.mem_flatMap.mp h
  obtain ⟨line, listed, taken, offset, rfl⟩ := exists_of_mem_outcomes mem
  exact ⟨line, listed, SourceLine.line_of_entries he⟩

/-- What an assembly holds for a line is what the line comes to. -/
theorem at_line_eq {source : String} {earlier later : List SourceLine} {line : SourceLine}
    (split : sourceLines source.toList = earlier ++ line :: later) :
    ∃ taken offset, (∀ name, name ∈ taken ↔ name ∈ earlier.flatMap SourceLine.names) ∧
      (assemble source).entriesAt line = (line.outcome (assemble source).labels taken offset).entries ∧
      (assemble source).diagnosticsAt line =
        (line.outcome (assemble source).labels taken offset).diagnostics (assemble source).labels := by
  have ordered := sourceLines_ordered source.toList
  rw [split, List.pairwise_append] at ordered
  obtain ⟨-, fromHere, fromAbove⟩ := ordered
  have above : ∀ l ∈ earlier, l.number < line.number := fun l mem => fromAbove l mem line List.mem_cons_self
  have below : ∀ l ∈ later, line.number < l.number := (List.pairwise_cons.mp fromHere).1
  obtain ⟨taken, offset, names, outcomes_eq⟩ :=
    outcomes_append (assemble source).labels [] 0 earlier (line :: later)
  refine ⟨taken, offset, by simpa using names, ?_, ?_⟩
  · rw [Assembly.entriesAt, assemble_listing_eq, split, outcomes_eq, outcomes, List.flatMap_append, List.flatMap_cons]
    refine filter_between ?_ (fun e he => SourceLine.line_of_entries he) ?_
    · intro e he
      obtain ⟨l, mem, same⟩ := line_of_outcomes_entries he
      exact same ▸ above l mem
    · intro e he
      obtain ⟨l, mem, same⟩ := line_of_outcomes_entries he
      exact same ▸ below l mem
  · rw [Assembly.diagnosticsAt, assemble_diagnostics_eq, split, outcomes_eq, outcomes, List.flatMap_append,
      List.flatMap_cons]
    refine filter_between ?_ (fun d hd => SourceLine.line_of_diagnostics hd) ?_
    · intro d hd
      obtain ⟨l, mem, same⟩ := line_of_outcomes_diagnostics hd
      exact same ▸ above l mem
    · intro d hd
      obtain ⟨l, mem, same⟩ := line_of_outcomes_diagnostics hd
      exact same ▸ below l mem

theorem SourceLine.outcome_of_old {line : SourceLine} {name : Token} {taken : List String}
    (label : line.label? = some name) (old : name.name ∈ taken) (labels : LabelTable) (offset : Nat) :
    line.outcome labels taken offset = .fails ⟨⟨name.span, .duplicateLabel name.name⟩, line.number⟩ := by
  simp only [SourceLine.outcome, label, if_pos old]

theorem SourceLine.outcome_of_new {line : SourceLine} {taken : List String}
    (new : ∀ name ∈ line.names, name ∉ taken) (labels : LabelTable) (offset : Nat) :
    line.outcome labels taken offset = line.bodyOutcome labels offset := by
  unfold SourceLine.outcome
  cases label : line.label? with
  | none => rfl
  | some name =>
    have fresh : name.name ∉ taken := new _ (by simp [SourceLine.names, label])
    simp only [if_neg fresh]

theorem SourceLine.bodyOutcome_silent {line : SourceLine} {labels : LabelTable} {offset : Nat} :
    line.bodyOutcome labels offset = .silent ↔ line.body = [] := by
  unfold SourceLine.bodyOutcome Statement.outcome
  cases line.body with
  | nil => simp
  | cons head operands =>
    dsimp only
    split
    next => simp
    next =>
      split
      next => simp
      next => split <;> simp

theorem Emission.isUnresolved_of_mem {e : Emission} {labels : LabelTable} {d : Diagnostic}
    (h : d ∈ e.unresolved labels) : d.error.isUnresolved = true := by
  obtain ⟨t, -, rfl⟩ := List.mem_map.mp h
  rfl

theorem assembly_accounts {source : String} {earlier later : List SourceLine} {line : SourceLine}
    (split : sourceLines source.toList = earlier ++ line :: later) :
    (assemble source).Accounts (earlier.flatMap SourceLine.names) line := by
  obtain ⟨taken, offset, names, entries, diagnostics⟩ := at_line_eq split
  by_cases new : ∀ name ∈ line.names, name ∉ taken
  · have fresh : ∀ name ∈ line.names, name ∉ earlier.flatMap SourceLine.names := by simpa only [names] using new
    have length := line.length_diagnostics (assemble source).labels taken offset
    have outcome := line.outcome_of_new new (assemble source).labels offset
    rw [outcome] at entries diagnostics length
    cases ho : line.bodyOutcome (assemble source).labels offset with
    | silent =>
      rw [ho] at entries diagnostics
      exact .empty fresh (SourceLine.bodyOutcome_silent.mp ho) diagnostics entries
    | fails d =>
      have stated : line.body ≠ [] := by
        intro bare
        cases ho.symm.trans (SourceLine.bodyOutcome_silent.mpr bare)
      rw [ho] at entries diagnostics
      exact .failed d fresh stated diagnostics (SourceLine.outcome_error (outcome.trans ho)) entries
    | emits e =>
      have stated : line.body ≠ [] := by
        intro bare
        cases ho.symm.trans (SourceLine.bodyOutcome_silent.mpr bare)
      rw [ho] at entries diagnostics length
      rw [← diagnostics] at length
      refine .emitted e.entry fresh stated entries length fun d hd => ?_
      rw [diagnostics] at hd
      exact Emission.isUnresolved_of_mem hd
  · obtain ⟨query, mem, old⟩ : ∃ query ∈ line.names, query ∈ taken := by simpa using new
    obtain ⟨name, label, rfl⟩ := List.mem_map.mp mem
    have label := Option.mem_toList.mp label
    rw [line.outcome_of_old label old] at entries diagnostics
    exact .duplicate name label ((names _).mp old) diagnostics entries

/-- Every source line is accounted for once, and nothing else is listed or reported. -/
theorem assemble_accounts_for_lines (source : String) :
    (∀ earlier line later, sourceLines source.toList = earlier ++ line :: later →
        (assemble source).Accounts (earlier.flatMap SourceLine.names) line) ∧
      (∀ e ∈ (assemble source).listing, ∃ line ∈ sourceLines source.toList, e.line = line.number) ∧
      (∀ d ∈ (assemble source).diagnostics, ∃ line ∈ sourceLines source.toList, d.line = line.number) ∧
      (assemble source).diagnostics.Pairwise fun d later => d.line < later.line := by
  refine ⟨fun earlier line later split => assembly_accounts split, ?_, ?_, diagnostics_ordered source⟩
  · intro e he
    rw [assemble_listing_eq] at he
    exact line_of_outcomes_entries he
  · intro d hd
    rw [assemble_diagnostics_eq] at hd
    exact line_of_outcomes_diagnostics hd

/-- A reference that stays open, and a label that is defined twice. -/
theorem assemble_accounts_for_lines_both :
    let a := assemble "a: jmp b\na: hlt"
    let first : SourceLine := ⟨1, [⟨.ident, ['a'], 0⟩, ⟨.colon, [':'], 1⟩, ⟨.ident, ['j', 'm', 'p'], 3⟩, ⟨.ident, ['b'], 7⟩]⟩
    let second : SourceLine := ⟨2, [⟨.ident, ['a'], 9⟩, ⟨.colon, [':'], 10⟩, ⟨.ident, ['h', 'l', 't'], 12⟩]⟩
    sourceLines "a: jmp b\na: hlt".toList = [first, second] ∧ a.Accounts [] first ∧ a.Accounts ["a"] second ∧
      a.diagnosticsAt first = [⟨⟨⟨7, 1⟩, .unresolvedLabel "b"⟩, 1⟩] ∧
      a.diagnosticsAt second = [⟨⟨⟨9, 1⟩, .duplicateLabel "a"⟩, 2⟩] := by
  intro a first second
  have lines : sourceLines "a: jmp b\na: hlt".toList = [first, second] := by decide +kernel
  obtain ⟨accounts, -, -, -⟩ := assemble_accounts_for_lines "a: jmp b\na: hlt"
  refine ⟨lines, accounts [] first [second] lines, accounts [first] second [] lines, ?_, ?_⟩
  · rw [Assembly.diagnosticsAt, assemble_diagnostics_eq]
    decide +kernel
  · rw [Assembly.diagnosticsAt, assemble_diagnostics_eq]
    decide +kernel

end I8080
