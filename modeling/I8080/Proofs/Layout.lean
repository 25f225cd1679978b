import I8080.Proofs.Assemble
import I8080.Proofs.Encoding
import I8080.Proofs.Writing

namespace I8080

theorem OperandKind.allows_of_read {mnemonic : String} {kind : OperandKind} {operand : Operand}
    {value : kind.Value} (h : kind.read mnemonic operand = .ok value) : kind.Allows value := by
  cases kind with
  | pair allowed =>
    cases operand with
    | value n => cases h
    | name text =>
      rw [OperandKind.read] at h
      cases found : (RegPair.ofName? text).filter allowed.allows with
      | none =>
        rw [found] at h
        cases h
      | some p =>
        rw [found] at h
        cases h
        exact (Option.filter_eq_some_iff.mp found).2
  | _ => exact trivial

theorem OperandKind.allAllow_of_readAll {mnemonic : String} {start : Nat} {kinds : List OperandKind}
    {operands : List Operand} {length : operands.length = kinds.length} {values : OperandKind.Values kinds}
    (h : OperandKind.readAll mnemonic start kinds operands length = .ok values) :
    OperandKind.AllAllow kinds values := by
  induction kinds generalizing start operands with
  | nil => exact trivial
  | cons kind kinds ih =>
    obtain ⟨operand, operands, rfl⟩ := List.exists_cons_of_length_eq_add_one length
    obtain ⟨read, others⟩ := OperandKind.readAll_cons_eq_ok h
    exact ⟨OperandKind.allows_of_read read, ih others⟩

/-- An entry of the table makes nothing that the byte format cannot hold. -/
def Mnemonic.Sound (m : Mnemonic) : Prop :=
  ∀ values, OperandKind.AllAllow m.kinds values → ∀ i, m.build values = .ok i → i.Canonical

theorem Mnemonic.sound_plain {name : String} {i : Instr} (h : i.Canonical) :
    Mnemonic.Sound ⟨name, [], .fixed i⟩ := by
  intro _ _ _ built
  cases built
  exact h

theorem Mnemonic.sound_unary {name : String} {kind : OperandKind} {make : kind.Value → Instr}
    (h : ∀ value, kind.Allows value → (make value).Canonical) : (Mnemonic.unary name kind make).Sound := by
  intro values allow _ built
  cases (Mnemonic.build_unary name kind make values).symm.trans built
  exact h values.1 allow.1

theorem Mnemonic.sound_mov : Mnemonic.Sound ⟨"mov", [.register, .register], .mov⟩ := by
  intro values _ i built
  obtain ⟨apart, rfl⟩ := Mnemonic.build_mov_eq_ok built
  exact apart

theorem Mnemonic.sound_binary {name : String} {first second : OperandKind} {form : Form}
    (make : first.Value → second.Value → Instr)
    (h : ∀ value value', Mnemonic.build ⟨name, [first, second], form⟩ (value, value', ()) = .ok (make value value'))
    (canonical : ∀ value value', first.Allows value → (make value value').Canonical) :
    Mnemonic.Sound ⟨name, [first, second], form⟩ := by
  rintro ⟨value, value', _⟩ allow i built
  cases (h value value').symm.trans built
  exact canonical value value' allow.1

theorem Mnemonic.sound {m : Mnemonic} (hm : m ∈ Mnemonic.table) : m.Sound := by
  revert m
  simp only [Mnemonic.table, List.forall_mem_cons]
  repeat' apply And.intro
  all_goals first
    | exact Mnemonic.sound_plain trivial
    | exact Mnemonic.sound_unary fun _ _ => trivial
    | exact Mnemonic.sound_unary fun _ allows => of_decide_eq_true allows
    | exact Mnemonic.sound_mov
    | exact Mnemonic.sound_binary .mvi (fun _ _ => rfl) fun _ _ _ => trivial
    | exact Mnemonic.sound_binary .lxi (fun _ _ => rfl) fun _ _ allows => of_decide_eq_true allows
    | exact fun _ h => absurd h List.not_mem_nil

theorem Mnemonic.canonical_of_instr {m : Mnemonic} (hm : m ∈ Mnemonic.table) {operands : List Operand}
    {i : Instr} (h : m.instr operands = .ok i) : i.Canonical := by
  obtain ⟨length, values, read, built⟩ := Mnemonic.instr_eq_ok h
  exact Mnemonic.sound hm values (OperandKind.allAllow_of_readAll read) _ built

theorem Statement.canonical_of_instr {s : Statement} (hm : s.mnemonic ∈ Mnemonic.table) {labels : LabelTable}
    {i : Instr} (h : s.instr labels = .ok i) : i.Canonical := by
  obtain ⟨operands, made⟩ := Statement.instr_eq_ok h
  exact Mnemonic.canonical_of_instr hm made

/-- Offsets and lengths of instructions that stand one after the other. -/
def layout : Nat → List Instr → List (Nat × Nat)
  | _, [] => []
  | offset, i :: is => (offset, i.size) :: layout (offset + i.size) is

theorem outcomes_layout (labels : LabelTable) (taken : List String) (offset : Nat) (lines : List SourceLine) :
    (((outcomes labels taken offset lines).filterMap Outcome.emission?).map fun e => (e.offset, e.instr.size)) =
      layout offset (((outcomes labels taken offset lines).filterMap Outcome.emission?).map Emission.instr) := by
  induction lines generalizing taken offset with
  | nil => rfl
  | cons line lines ih =>
    have rest := ih (line.names ++ taken) (offset + (line.outcome labels taken offset).bytes.length)
    cases ho : line.outcome labels taken offset with
    | silent =>
      rw [ho] at rest
      simpa [outcomes, ho, List.filterMap_cons, Outcome.emission?, Outcome.bytes] using rest
    | fails d =>
      rw [ho] at rest
      simpa [outcomes, ho, List.filterMap_cons, Outcome.emission?, Outcome.bytes] using rest
    | emits e =>
      obtain ⟨_, _, s, -, -, outcome⟩ := SourceLine.outcome_emits ho
      obtain ⟨_, he, _⟩ := Statement.outcome_emits outcome
      have at_offset : e.offset = offset := by rw [he]
      rw [ho] at rest
      simpa [outcomes, ho, List.filterMap_cons, Outcome.emission?, Outcome.bytes, Instr.length_encode, layout,
        at_offset] using rest

theorem outcomes_canonical {labels : LabelTable} {taken : List String} {offset : Nat} {lines : List SourceLine}
    {e : Emission} (h : .emits e ∈ outcomes labels taken offset lines) : e.instr.Canonical := by
  obtain ⟨line, -, taken, offset, emits⟩ := exists_of_mem_outcomes h
  obtain ⟨_, _, s, -, read, outcome⟩ := SourceLine.outcome_emits emits
  exact Statement.canonical_of_instr (Statement.mnemonic_mem_table read) (Statement.outcome_emits outcome).1

theorem Image.getD_of_ofBytes? {bytes : List UInt8} {image : Image} (h : Image.ofBytes? bytes = some image)
    (k : Nat) : image[k]?.getD 0 = bytes.getD k 0 := by
  obtain ⟨fits, he⟩ := Image.ofBytes?_eq_some_iff.mp h
  by_cases hk : k < windowSize
  · simpa [hk] using he k hk
  · have beyond : bytes.length ≤ k := by omega
    rw [List.getD_eq_default _ _ beyond]
    simp [Nat.not_lt.mp hk]

theorem Instr.ofBytes?_drop (bytes : List UInt8) (n : Nat) :
    Instr.ofBytes? (bytes.drop n) =
      Instr.decode (bytes.getD n 0) (bytes.getD (n + 1) 0) (bytes.getD (n + 2) 0) := by
  simp [Instr.ofBytes?, List.getD_eq_getElem?_getD]

/-- Instructions that stand one after the other are found again at their offsets. -/
theorem Instr.ofBytes?_layout {is : List Instr} (canonical : ∀ i ∈ is, i.Canonical) (before : List UInt8) :
    (layout before.length is).map (fun place =>
      Instr.ofBytes? ((before ++ is.flatMap Instr.encode).drop place.1)) = is.map some := by
  induction is generalizing before with
  | nil => rfl
  | cons i is ih =>
    have here := Instr.ofBytes?_encode_append (canonical i (by simp)) (is.flatMap Instr.encode)
    have later := ih (fun j hj => canonical j (by simp [hj])) (before ++ i.encode)
    rw [List.length_append, Instr.length_encode] at later
    simpa [layout, here] using later

theorem emissions_canonical (labels : LabelTable) (source : String) :
    ∀ i ∈ (emissions labels source).map Emission.instr, i.Canonical := by
  intro i hi
  obtain ⟨e, he, rfl⟩ := List.mem_map.mp hi
  obtain ⟨o, mem, ho⟩ := List.mem_filterMap.mp he
  rw [Outcome.emission?_eq_some.mp ho] at mem
  exact outcomes_canonical mem

theorem emissions_layout (labels : LabelTable) (source : String) :
    ((emissions labels source).map fun e => (e.offset, e.instr.size)) =
      layout 0 ((emissions labels source).map Emission.instr) :=
  outcomes_layout labels [] 0 (sourceLines source.toList)

/-- The image holds the emitted instructions at the offsets of the listing. -/
theorem assemble_instr? (source : String) :
    (assemble source).listing.map (assemble source).instr? =
      ((emissions (assemble source).labels source).map Emission.instr).map some := by
  have image := Image.getD_of_ofBytes? (assemble_image source)
  have read := Instr.ofBytes?_layout (emissions_canonical (assemble source).labels source) []
  rw [List.length_nil, ← emissions_layout, List.map_map, List.nil_append, List.flatMap_map] at read
  rw [assemble_listing, List.map_map, ← read]
  refine List.map_congr_left fun e _ => ?_
  simp only [Function.comp_apply, Emission.entry, Assembly.instr?, image, Instr.ofBytes?_drop, Nat.add_zero]

end I8080
