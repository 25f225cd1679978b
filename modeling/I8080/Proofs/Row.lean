import I8080.Proofs.Writing

namespace I8080

/-- Whether an operand of this kind stands in the bytes after the opcode. -/
def OperandKind.isImmediate (kind : OperandKind) : Bool :=
  kind = .byte || kind.isWord

/-- The bytes after the opcode that hold a value, low byte first. -/
def OperandKind.valueBytes : (kind : OperandKind) → kind.Value → List UInt8
  | .byte, b => [b]
  | .word, w | .address, w => [Word.low w, Word.high w]
  | .register, _ | .pair _, _ | .vector, _ => []

/-- Zero for an immediate value; any other value is kept. -/
def OperandKind.blank : (kind : OperandKind) → kind.Value → kind.Value
  | .byte, _ => (0 : UInt8)
  | .word, _ | .address, _ => (0 : UInt16)
  | .register, loc => loc
  | .pair _, p => p
  | .vector, v => v

def OperandKind.allBytes : (kinds : List OperandKind) → OperandKind.Values kinds → List UInt8
  | [], _ => []
  | kind :: kinds, (value, values) => kind.valueBytes value ++ OperandKind.allBytes kinds values

def OperandKind.blankAll : (kinds : List OperandKind) → OperandKind.Values kinds → OperandKind.Values kinds
  | [], _ => ()
  | kind :: kinds, (value, values) => (kind.blank value, OperandKind.blankAll kinds values)

/-- The text of an instruction of an entry begins with the name of the entry. Its bytes are an opcode that no
immediate value changes, and then the immediate values. -/
structure Mnemonic.Lays (m : Mnemonic) (values : OperandKind.Values m.kinds) (i : Instr) : Prop where
  text : i.toText = m.name ∨ ∃ rest, i.toText = m.name ++ " " ++ rest
  encode : ∃ blank, m.build (OperandKind.blankAll m.kinds values) = .ok blank ∧
    i.encode = blank.encode.headD 0 :: OperandKind.allBytes m.kinds values

def Mnemonic.LaysAll (m : Mnemonic) : Prop :=
  ∀ values i, m.build values = .ok i → m.Lays values i

theorem Mnemonic.lays_plain {name : String} {i : Instr} (text : i.toText = name)
    (encode : i.encode = [i.encode.headD 0]) : Mnemonic.LaysAll ⟨name, [], .fixed i⟩ := by
  intro _ _ built
  cases built
  exact ⟨.inl text, i, rfl, encode⟩

theorem Mnemonic.lays_unary {name : String} {kind : OperandKind} {make : kind.Value → Instr}
    (text : ∀ value, ∃ rest, (make value).toText = name ++ " " ++ rest)
    (encode : ∀ value, (make value).encode = (make (kind.blank value)).encode.headD 0 :: kind.valueBytes value) :
    (Mnemonic.unary name kind make).LaysAll := by
  rintro ⟨value, _⟩ _ built
  cases (Mnemonic.build_unary name kind make _).symm.trans built
  refine ⟨.inr (text value), _, Mnemonic.build_unary name kind make _, ?_⟩
  rw [encode value]
  exact congrArg (_ :: ·) (List.append_nil _).symm

theorem Mnemonic.lays_binary {name : String} {first second : OperandKind} {form : Form}
    (make : first.Value → second.Value → Instr)
    (built : ∀ value value' i, Mnemonic.build ⟨name, [first, second], form⟩ (value, value', ()) = .ok i →
      i = make value value' ∧
        Mnemonic.build ⟨name, [first, second], form⟩ (first.blank value, second.blank value', ()) =
          .ok (make (first.blank value) (second.blank value')))
    (text : ∀ value value',
      (make value value').toText = name ++ " " ++ first.text value ++ ", " ++ second.text value')
    (encode : ∀ value value', (make value value').encode =
      (make (first.blank value) (second.blank value')).encode.headD 0 ::
        (first.valueBytes value ++ second.valueBytes value')) :
    Mnemonic.LaysAll ⟨name, [first, second], form⟩ := by
  rintro ⟨value, value', _⟩ i made
  obtain ⟨rfl, blank⟩ := built value value' i made
  refine ⟨.inr ⟨first.text value ++ ", " ++ second.text value', ?_⟩, _, blank, ?_⟩
  · simp only [text value value', String.append_assoc]
  · rw [encode value value']
    exact congrArg (fun bytes => _ :: (_ ++ bytes)) (List.append_nil _).symm

theorem Mnemonic.lays_mov : Mnemonic.LaysAll ⟨"mov", [.register, .register], .mov⟩ := by
  refine Mnemonic.lays_binary .mov ?_ (fun _ _ => rfl) fun _ _ => rfl
  intro dest src i built
  obtain ⟨-, rfl⟩ := Mnemonic.build_mov_eq_ok built
  exact ⟨rfl, built⟩

theorem Mnemonic.lays {m : Mnemonic} (hm : m ∈ Mnemonic.table) : m.LaysAll := by
  revert m
  simp only [Mnemonic.table, List.forall_mem_cons]
  repeat' apply And.intro
  all_goals first
    | exact Mnemonic.lays_plain rfl rfl
    | exact Mnemonic.lays_unary (fun _ => ⟨_, rfl⟩) fun _ => rfl
    | exact Mnemonic.lays_mov
    | exact Mnemonic.lays_binary .mvi (fun _ _ _ built => ⟨(Except.ok.inj built).symm, rfl⟩) (fun _ _ => rfl)
        fun _ _ => rfl
    | exact Mnemonic.lays_binary .lxi (fun _ _ _ built => ⟨(Except.ok.inj built).symm, rfl⟩) (fun _ _ => rfl)
        fun _ _ => rfl
    | exact fun _ h => absurd h List.not_mem_nil

/-- No operand stands in memory behind an immediate one. -/
theorem Mnemonic.isImmediate_dropLast {m : Mnemonic} (hm : m ∈ Mnemonic.table) :
    ∀ kind ∈ m.kinds.dropLast, kind.isImmediate = false := by
  have all : ∀ m ∈ Mnemonic.table, ∀ kind ∈ m.kinds.dropLast, kind.isImmediate = false := by decide
  exact all m hm

end I8080
