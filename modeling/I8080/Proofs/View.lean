import I8080.Proofs.Rename

namespace I8080

/-- What one looks at in a span and in a complaint, to compare two texts of which the second may have other names for
its labels. Where spans look the same, so do the complaints of one error about them. -/
structure View where
  Place : Type
  Remark : Type
  rename : String → String
  injective : Function.Injective rename
  place : Span → Place
  remark : Complaint → Remark
  remark_eq (s t : Span) (same : place s = place t) (e : AsmError) : remark ⟨s, e⟩ = remark ⟨t, e⟩

namespace View

variable (v : View)

def label (f : String → String) (t : Token) : String × v.Place :=
  (f t.name, v.place t.span)

def entry (e : Entry) : Nat × v.Place × Nat × Nat :=
  (e.line, v.place e.span, e.offset, e.size)

def diagnostic (d : Diagnostic) : Nat × v.Remark :=
  (d.line, v.remark d.toComplaint)

def reference (r : Reference) : String × v.Place :=
  (r.name, v.place r.span)

def fixup (f : Fixup) : (String × v.Place) × Nat × Nat :=
  (v.reference f.toReference, f.line, f.offset)

def Complains (c d : Complaint) : Prop :=
  v.remark (c.rename v.rename) = v.remark d

/-- Two statements that come to the same instruction against every label table. -/
structure States (s t : Statement) : Prop where
  span : v.place s.span = v.place t.span
  instr (labels : LabelTable) : Alike v.Complains Eq (s.instr labels) (t.instr (labels.rename v.rename))
  reference (labels : LabelTable) :
    (s.reference? labels).map (fun r => v.reference (r.rename v.rename)) =
      (t.reference? (labels.rename v.rename)).map v.reference

/-- What stands after the labels of two lines reads the same. -/
inductive Reads : List Token → List Token → Prop
  | bare : Reads [] []
  | stated (head head' : Token) (operands operands' : List Token)
      (same : Alike v.Complains v.States (Statement.ofTokens head operands) (Statement.ofTokens head' operands')) :
      Reads (head :: operands) (head' :: operands')

structure Lines (l m : SourceLine) : Prop where
  number : l.number = m.number
  label : l.label?.map (v.label v.rename) = m.label?.map (v.label id)
  body : v.Reads l.body m.body

/-- Two states of the first pass that look the same. -/
structure Passes (p q : Pass) : Prop where
  image : p.image = q.image
  labels : q.labels = p.labels.rename v.rename
  offset : p.offset = q.offset
  listing : p.listing.toList.map v.entry = q.listing.toList.map v.entry
  fixups : (p.fixups.toList.map fun x => v.fixup (x.rename v.rename)) = q.fixups.toList.map v.fixup
  diagnostics : (p.diagnostics.toList.map fun d => v.diagnostic (d.rename v.rename)) =
    q.diagnostics.toList.map v.diagnostic

variable {v}

theorem States.fixups {s t : Statement} (h : v.States s t) (labels : LabelTable) (line offset : Nat) :
    ((s.fixups labels line offset).map fun x => v.fixup (x.rename v.rename)) =
      (t.fixups (labels.rename v.rename) line offset).map v.fixup := by
  have same := congrArg (fun r => r.toList.map fun place => (place, line, offset + 1)) (h.reference labels)
  simpa [Statement.fixups, fixup, Fixup.rename, Reference.rename, Option.toList_map, Function.comp_def] using same

namespace Passes

variable {p q : Pass}

theorem report (h : v.Passes p q) (line : Nat) {c d : Complaint} (same : v.Complains c d) :
    v.Passes (p.report line c) (q.report line d) :=
  { h with
    diagnostics := by
      have remark : v.remark (c.rename v.rename) = v.remark d := same
      simp only [Pass.report, Array.toList_push, List.map_append, h.diagnostics]
      exact congrArg (fun r => _ ++ [(line, r)]) remark }

theorem define (h : v.Passes p q) (labels : LabelTable) :
    v.Passes { p with labels } { q with labels := labels.rename v.rename } :=
  { h with labels := rfl }

theorem emit (h : v.Passes p q) (line : Nat) {s t : Statement} (same : v.States s t) :
    Alike v.Complains v.Passes (p.emit line s) (q.emit line t) := by
  have instr := same.instr p.labels
  rw [← h.labels] at instr
  generalize hs : s.instr p.labels = first at instr
  generalize ht : t.instr q.labels = second at instr
  cases instr with
  | error complains =>
    rw [Pass.emit_of_error hs, Pass.emit_of_error ht]
    exact .error complains
  | @ok i j equal =>
    subst equal
    by_cases fits : q.offset + i.size ≤ windowSize
    · rw [Pass.emit_of_instr hs (h.offset ▸ fits), Pass.emit_of_instr ht fits]
      refine .ok { h with image := ?_, offset := ?_, listing := ?_, fixups := ?_ }
      · rw [h.image, h.offset]
      · rw [h.offset]
      · simp [h.listing, entry, same.span, h.offset]
      · simp [h.fixups, same.fixups, ← h.labels, h.offset]
    · rw [Pass.emit_of_overflow hs (h.offset ▸ fits), Pass.emit_of_overflow ht fits, h.offset]
      exact .error (v.remark_eq _ _ same.span _)

theorem body (h : v.Passes p q) {l m : SourceLine} (same : v.Lines l m) :
    Alike v.Complains v.Passes (p.body l) (q.body m) := by
  have reads := same.body
  unfold Pass.body
  generalize l.body = first at reads
  generalize m.body = second at reads
  rw [same.number]
  cases reads with
  | bare => exact .ok h
  | stated head head' operands operands' statement => exact statement.bind fun s t states => h.emit m.number states

theorem settle (h : v.Passes p q) {l m : SourceLine} (same : v.Lines l m) : v.Passes (p.settle l) (q.settle m) := by
  have body := h.body same
  unfold Pass.settle
  generalize p.body l = first at body
  generalize q.body m = second at body
  cases body with
  | error complains => exact same.number ▸ h.report l.number complains
  | ok passes => exact passes

theorem line (h : v.Passes p q) {l m : SourceLine} (same : v.Lines l m) : v.Passes (p.line l) (q.line m) := by
  have label := same.label
  rw [Pass.line_eq, Pass.line_eq]
  cases hl : l.label? with
  | none =>
    rw [hl] at label
    rw [Option.map_eq_none_iff.mp label.symm]
    exact h.settle same
  | some name =>
    rw [hl] at label
    obtain ⟨name', hm, equal⟩ := Option.map_eq_some_iff.mp label.symm
    have names : name'.name = v.rename name.name := congrArg Prod.fst equal
    have places : v.place name'.span = v.place name.span := congrArg Prod.snd equal
    have inserted : q.labels.insert? name'.name (addressOf q.offset) =
        (p.labels.insert? name.name (addressOf p.offset)).map (LabelTable.rename v.rename) := by
      rw [h.labels, names, ← h.offset, LabelTable.insert?_rename v.injective]
    rw [hm]
    dsimp only
    rw [inserted]
    cases p.labels.insert? name.name (addressOf p.offset) with
    | none =>
      rw [same.number]
      refine h.report m.number ?_
      rw [names]
      exact v.remark_eq _ _ places.symm _
    | some labels => exact (h.define labels).settle same

theorem foldl_line (h : v.Passes p q) {ls ms : List SourceLine} (same : List.Forall₂ v.Lines ls ms) :
    v.Passes (ls.foldl Pass.line p) (ms.foldl Pass.line q) := by
  induction same generalizing p q with
  | nil => exact h
  | cons first _ ih => exact ih (h.line first)

end Passes

theorem foldl_fill {fixups others : List Fixup}
    (same : (fixups.map fun x => v.fixup (x.rename v.rename)) = others.map v.fixup) (labels : LabelTable)
    (image : Image) :
    fixups.foldl (Image.fill labels) image = others.foldl (Image.fill (labels.rename v.rename)) image := by
  induction fixups generalizing others image with
  | nil =>
    rw [List.map_eq_nil_iff.mp same.symm]
    rfl
  | cons x fixups ih =>
    obtain ⟨y, others, rfl, first, rest⟩ := List.map_eq_cons_iff.mp same.symm
    have step : Image.fill labels image x = Image.fill (labels.rename v.rename) image y := by
      obtain ⟨reference, place⟩ := Prod.mk.inj first
      have name : y.name = v.rename x.name := congrArg Prod.fst reference
      have offset : y.offset = x.offset := congrArg Prod.snd place
      rw [Image.fill, Image.fill, name, offset, LabelTable.get?_rename v.injective]
    rw [List.foldl_cons, List.foldl_cons, step, ih rest.symm]

theorem unresolved_eq {fixups others : List Fixup}
    (same : (fixups.map fun x => v.fixup (x.rename v.rename)) = others.map v.fixup) (labels : LabelTable) :
    (((fixups.filter fun x => (labels.get? x.name).isNone).map Fixup.diagnostic).map fun d =>
        v.diagnostic (d.rename v.rename)) =
      ((others.filter fun x => ((labels.rename v.rename).get? x.name).isNone).map Fixup.diagnostic).map
        v.diagnostic := by
  induction fixups generalizing others with
  | nil =>
    rw [List.map_eq_nil_iff.mp same.symm]
    rfl
  | cons x fixups ih =>
    obtain ⟨y, others, rfl, first, rest⟩ := List.map_eq_cons_iff.mp same.symm
    obtain ⟨reference, place⟩ := Prod.mk.inj first
    have name : y.name = v.rename x.name := congrArg Prod.fst reference
    have shown : v.diagnostic (x.diagnostic.rename v.rename) = v.diagnostic y.diagnostic := by
      have line : y.line = x.line := congrArg Prod.fst place
      have span : v.place y.span = v.place x.span := congrArg Prod.snd reference
      have remark := v.remark_eq _ _ span (.unresolvedLabel (v.rename x.name))
      simp only [diagnostic, Fixup.diagnostic, line, name, remark]
      rfl
    rw [List.filter_cons, List.filter_cons, name, LabelTable.get?_rename v.injective]
    split
    next => rw [List.map_cons, List.map_cons, List.map_cons, List.map_cons, shown, ih rest.symm]
    next => exact ih rest.symm

/-- Sources whose lines look the same, up to the names of their labels, assemble to the same image and to labels that
differ in their names only, and what is listed and reported looks the same. -/
theorem assemble_rename {source other : String}
    (same : List.Forall₂ v.Lines (sourceLines source.toList) (sourceLines other.toList)) :
    (assemble source).image = (assemble other).image ∧
      (assemble other).labels = (assemble source).labels.rename v.rename ∧
      (assemble source).listing.map v.entry = (assemble other).listing.map v.entry ∧
      ((assemble source).diagnostics.map fun d => v.diagnostic (d.rename v.rename)) =
        (assemble other).diagnostics.map v.diagnostic := by
  have h : v.Passes (firstPass source) (firstPass other) :=
    Passes.foldl_line ⟨rfl, LabelTable.rename_empty.symm, rfl, rfl, rfl, rfl⟩ same
  rw [I8080.assemble_eq, I8080.assemble_eq]
  refine ⟨?_, h.labels, h.listing, ?_⟩
  · dsimp only
    rw [h.image, h.labels, foldl_fill h.fixups]
  · have byLine (shown : Diagnostic → Nat × v.Remark) (line : ∀ d, (shown d).1 = d.line) (ds : List Diagnostic) :
        (ds.mergeSort fun d e => d.line ≤ e.line).map shown =
          (ds.map shown).mergeSort fun d e => d.1 ≤ e.1 :=
      List.map_mergeSort fun d _ e _ => by rw [line, line]
    rw [byLine _ fun _ => rfl, byLine _ fun _ => rfl, List.map_append, List.map_append, h.diagnostics, h.labels,
      unresolved_eq h.fixups]

/-- Where no label goes by another name, the labels are the same as well. -/
theorem assemble_of_unrenamed (unrenamed : v.rename = id) {source other : String}
    (same : List.Forall₂ v.Lines (sourceLines source.toList) (sourceLines other.toList)) :
    (assemble source).image = (assemble other).image ∧ (assemble source).labels = (assemble other).labels ∧
      (assemble source).listing.map v.entry = (assemble other).listing.map v.entry ∧
        (assemble source).diagnostics.map v.diagnostic = (assemble other).diagnostics.map v.diagnostic := by
  obtain ⟨image, labels, listing, diagnostics⟩ := assemble_rename same
  rw [unrenamed, LabelTable.rename_id] at labels
  simp only [unrenamed, Diagnostic.rename_id] at diagnostics
  exact ⟨image, labels.symm, listing, diagnostics⟩

end View

end I8080
