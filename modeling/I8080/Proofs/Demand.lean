import I8080.Machine.Execute
import I8080.Proofs.Stack

namespace I8080

/-- Something that an instruction cannot do without: a cell of the window at an address, an address that
the stack pointer can take, room for a word on the stack, or a word on it. -/
inductive Demand where
  | cell (address : UInt16)
  | pointer (address : UInt16)
  | room
  | word

def Demand.MetBy (m : Machine) : Demand → Prop
  | .cell address => 0x0800 ≤ address.toNat ∧ address.toNat < 0x0BB0
  | .pointer address => 0x0800 ≤ address.toNat ∧ address.toNat ≤ 0x0BB0
  | .room => 2 ≤ m.sp.val
  | .word => m.sp.val ≤ 942

instance (m : Machine) (d : Demand) : Decidable (d.MetBy m) := by
  cases d <;> unfold Demand.MetBy <;> infer_instance

/-- The address that a fault names when there is not what is demanded. -/
def Demand.blamed : Demand → UInt16
  | .cell address | .pointer address => address
  | .room => 0x07FF
  | .word => 0x0BB0

def Machine.operandDemands (m : Machine) : Loc → List Demand
  | .reg _ => []
  | .mem => [.cell (m.pair .hl)]

def Machine.pairDemands (pair : RegPair) (value : UInt16) : List Demand :=
  if pair = .sp then [.pointer value] else []

/-- The word that a pop takes from the stack. -/
def Machine.top (m : Machine) : UInt16 :=
  Word.join (m.memory.wrapped m.sp) (m.memory.wrapped (m.sp + 1))

/-- What an instruction demands, in the order in which it comes to need it. -/
def Machine.demands (m : Machine) : Instr → List Demand
  | .mov dest src => m.operandDemands src ++ m.operandDemands dest
  | .mvi loc _ | .inr loc | .dcr loc | .alu _ loc => m.operandDemands loc
  | .lda address | .sta address | .jmp address => [.cell address]
  | .lhld address | .shld address => [.cell address, .cell (address + 1)]
  | .ldax pair | .stax pair => [.cell (m.pair pair)]
  | .lxi pair value => Machine.pairDemands pair value
  | .inx pair => Machine.pairDemands pair (m.pair pair + 1)
  | .dcx pair => Machine.pairDemands pair (m.pair pair - 1)
  | .sphl => [.pointer (m.pair .hl)]
  | .pchl => [.cell (m.pair .hl)]
  | .jmpIf condition address => if condition.holds m.flags then [.cell address] else []
  | .call address => [.cell address, .room]
  | .callIf condition address => if condition.holds m.flags then [.cell address, .room] else []
  | .rst _ | .push _ => [.room]
  | .pop _ | .xthl => [.word]
  | .ret => [.word, .cell m.top]
  | .retIf condition => if condition.holds m.flags then [.word, .cell m.top] else []
  | _ => []

/-- The address to blame for the first demand that is not met. -/
def Machine.blame? (m : Machine) (demands : List Demand) : Option UInt16 :=
  (demands.find? fun d => !decide (d.MetBy m)).map Demand.blamed

/-- An attempt that comes off if all demands are met, and else blames the first that is not. -/
def Machine.Answers {α : Type} (m : Machine) (demands : List Demand) (attempt : Except Fault α) : Prop :=
  match m.blame? demands with
  | some address => attempt = .error (m.outside address)
  | none => ∃ result, attempt = .ok result

theorem Machine.answers_ok {α : Type} (m : Machine) (result : α) : m.Answers [] (.ok result) :=
  ⟨result, rfl⟩

theorem Machine.answers_met {α : Type} {m : Machine} {d : Demand} {attempt : Except Fault α}
    (met : d.MetBy m) (result : α) (h : attempt = .ok result) : m.Answers [d] attempt := by
  have none : m.blame? [d] = none := by simp [Machine.blame?, met]
  rw [Machine.Answers, none]
  exact ⟨result, h⟩

theorem Machine.answers_unmet {α : Type} {m : Machine} {d : Demand} {attempt : Except Fault α}
    (unmet : ¬d.MetBy m) (h : attempt = .error (m.outside d.blamed)) : m.Answers [d] attempt := by
  have some : m.blame? [d] = some d.blamed := by simp [Machine.blame?, unmet]
  rw [Machine.Answers, some]
  exact h

theorem Machine.Answers.bind {α β : Type} {m : Machine} {first second : List Demand}
    {attempt : Except Fault α} {rest : α → Except Fault β} (h : m.Answers first attempt)
    (next : ∀ result, attempt = .ok result → m.Answers second (rest result)) :
    m.Answers (first ++ second) (attempt >>= rest) := by
  unfold Machine.Answers Machine.blame? at *
  rw [List.find?_append]
  cases hf : first.find? fun d => !decide (d.MetBy m) with
  | some d =>
    rw [hf] at h
    simp only [Option.map_some] at h
    rw [h]
    rfl
  | none =>
    rw [hf] at h
    obtain ⟨result, ok⟩ := h
    have rest := next result ok
    rw [ok]
    exact rest

theorem Machine.Answers.map {α β : Type} {m : Machine} {demands : List Demand} {attempt : Except Fault α}
    (h : m.Answers demands attempt) (f : α → β) : m.Answers demands (attempt.map f) := by
  unfold Machine.Answers at *
  split at h
  next => rw [h]; rfl
  next =>
    obtain ⟨result, ok⟩ := h
    exact ⟨f result, by rw [ok]; rfl⟩

/-- What comes after a successful attempt and cannot fail demands nothing more. -/
theorem Machine.Answers.andThen {α β : Type} {m : Machine} {demands : List Demand} {attempt : Except Fault α}
    {rest : α → Except Fault β} (h : m.Answers demands attempt)
    (ok : ∀ result, attempt = .ok result → ∃ last, rest result = .ok last) :
    m.Answers demands (attempt >>= rest) := by
  have all : m.Answers (demands ++ []) (attempt >>= rest) := h.bind fun result hr => ok result hr
  rwa [List.append_nil] at all

theorem Machine.Answers.ok_iff {α : Type} {m : Machine} {demands : List Demand} {attempt : Except Fault α}
    (h : m.Answers demands attempt) : (∃ result, attempt = .ok result) ↔ m.blame? demands = none := by
  unfold Machine.Answers at h
  split at h
  next address blames => simp [h, blames]
  next met => simp [h, met]

theorem Machine.Answers.ite {α : Type} {m : Machine} {demands : List Demand} {attempt : Except Fault α}
    (h : m.Answers demands attempt) (condition : Bool) (otherwise : α) :
    m.Answers (if condition then demands else []) (if condition then attempt else .ok otherwise) := by
  cases condition with
  | true => exact h
  | false => exact m.answers_ok otherwise

theorem toNat_sub_windowBase (address : UInt16) :
    (address - windowBase).toNat =
      if 0x0800 ≤ address.toNat then address.toNat - 0x0800 else address.toNat + 0xF800 := by
  have bound := address.toNat_lt
  have base : windowBase.toNat = 0x0800 := rfl
  rw [UInt16.toNat_sub, base]
  split <;> omega

theorem sub_windowBase_lt_iff (address : UInt16) :
    (address - windowBase).toNat < windowSize ↔ 0x0800 ≤ address.toNat ∧ address.toNat < 0x0BB0 := by
  have bound := address.toNat_lt
  have size : windowSize = 944 := rfl
  rw [toNat_sub_windowBase]
  split <;> omega

theorem sub_windowBase_le_iff (address : UInt16) :
    (address - windowBase).toNat ≤ windowSize ↔ 0x0800 ≤ address.toNat ∧ address.toNat ≤ 0x0BB0 := by
  have bound := address.toNat_lt
  have size : windowSize = 944 := rfl
  rw [toNat_sub_windowBase]
  split <;> omega

theorem Machine.answers_offsetOf {m n : Machine} (pc : n.pc = m.pc) (address : UInt16) :
    m.Answers [.cell address] (n.offsetOf address) := by
  by_cases inside : (address - windowBase).toNat < windowSize
  · refine Machine.answers_met ((sub_windowBase_lt_iff address).mp inside) ⟨_, inside⟩ ?_
    simp [Machine.offsetOf, Offset.ofAddress?, inside]
  · refine Machine.answers_unmet (fun met => inside ((sub_windowBase_lt_iff address).mpr met)) ?_
    simp [Machine.offsetOf, Offset.ofAddress?, inside, Machine.outside, Demand.blamed, pc]

theorem Machine.answers_read {m n : Machine} (pc : n.pc = m.pc) (address : UInt16) :
    m.Answers [.cell address] (n.read address) :=
  (Machine.answers_offsetOf pc address).map _

theorem Machine.answers_write {m n : Machine} (pc : n.pc = m.pc) (address : UInt16) (value : UInt8) :
    m.Answers [.cell address] (n.write address value) :=
  (Machine.answers_offsetOf pc address).map _

theorem Machine.jump_eq (m : Machine) (address : UInt16) :
    m.jump address = (m.offsetOf address).map fun offset => m.goto offset.val := by
  unfold Machine.jump
  cases m.offsetOf address <;> rfl

theorem Machine.answers_jump {m n : Machine} (pc : n.pc = m.pc) (address : UInt16) :
    m.Answers [.cell address] (n.jump address) := by
  rw [Machine.jump_eq]
  exact (Machine.answers_offsetOf pc address).map _

theorem Machine.answers_load (m : Machine) (loc : Loc) : m.Answers (m.operandDemands loc) (m.load loc) := by
  cases loc with
  | reg r => exact m.answers_ok _
  | mem => exact Machine.answers_read rfl _

theorem Machine.answers_store (m : Machine) (loc : Loc) (value : UInt8) :
    m.Answers (m.operandDemands loc) (m.store loc value) := by
  cases loc with
  | reg r => exact m.answers_ok _
  | mem => exact Machine.answers_write rfl _ _

theorem Machine.answers_setPair (m : Machine) (pair : RegPair) (value : UInt16) :
    m.Answers (Machine.pairDemands pair value) (m.setPair pair value) := by
  cases pair with
  | sp =>
    by_cases inside : (value - windowBase).toNat ≤ windowSize
    · refine Machine.answers_met ((sub_windowBase_le_iff value).mp inside)
        { m with sp := ⟨_, Nat.lt_succ_of_le inside⟩ } ?_
      simp [Machine.setPair, inside]
    · refine Machine.answers_unmet (fun met => inside ((sub_windowBase_le_iff value).mpr met)) ?_
      simp [Machine.setPair, inside, Demand.blamed]
  | _ => exact m.answers_ok _

theorem Machine.answers_push {m : Machine} (value : UInt16) : m.Answers [.room] (m.push value) := by
  by_cases met : Demand.room.MetBy m
  · have room : m.sp.val = m.sp.val - 2 + 2 := by
      have : 2 ≤ m.sp.val := met
      omega
    exact Machine.answers_met met _ (Machine.push_of_room room value)
  · exact Machine.answers_unmet met (Machine.push_of_full (Nat.lt_of_not_le met) value)

theorem Machine.answers_pop (m : Machine) : m.Answers [.word] m.pop := by
  by_cases met : Demand.word.MetBy m
  · exact Machine.answers_met met _ (Machine.pop_of_word (Nat.add_le_add_right met 2))
  · exact Machine.answers_unmet met (Machine.pop_of_short (Nat.add_lt_add_right (Nat.lt_of_not_le met) 2))

/-- A write changes nothing but memory, so that what comes after it in an instruction finds all else as it was. -/
theorem Machine.write_eq_ok {m n : Machine} {address : UInt16} {value : UInt8}
    (h : m.write address value = .ok n) : n = { m with memory := n.memory } := by
  unfold Machine.write at h
  cases ho : m.offsetOf address with
  | error f =>
    rw [ho] at h
    cases h
  | ok offset =>
    rw [ho] at h
    cases h
    rfl

theorem Image.wrapped_of_lt (image : Image) {n : Nat} (h : n < windowSize) : image.wrapped n = image[n] := by
  simp [Image.wrapped, Offset.wrap, Nat.mod_eq_of_lt h]

theorem Machine.pop_eq_ok {m n : Machine} {value : UInt16} (h : m.pop = .ok (value, n)) :
    value = m.top ∧ n = { m with sp := n.sp } ∧ n.sp.val = m.sp.val + 2 := by
  by_cases word : m.sp.val + 2 ≤ windowSize
  · rw [Machine.pop_of_word word] at h
    cases h
    refine ⟨?_, rfl, rfl⟩
    rw [Machine.top, Image.wrapped_of_lt _ (Nat.lt_of_succ_lt word), Image.wrapped_of_lt _ word]
  · rw [Machine.pop_of_short (Nat.lt_of_not_le word)] at h
    cases h

theorem Machine.setPair_of_ne_sp (m : Machine) {pair : RegPair} (h : pair ≠ .sp) (value : UInt16) :
    ∃ n, m.setPair pair value = .ok n := by
  cases pair with
  | sp => exact absurd rfl h
  | _ => exact ⟨_, rfl⟩

theorem Machine.answers_of_perform {m : Machine} {i : Instr} {demands : List Demand}
    (h : m.Answers demands (m.perform i)) (on : ∀ n next, Machine.transfer n next i = .ok (n.goto next)) :
    m.Answers demands (m.execute i) :=
  h.andThen fun result _ => ⟨_, on result (m.past i)⟩

theorem Machine.answers_call (m : Machine) (next : Offset) (address : UInt16) :
    m.Answers [.cell address, .room] (m.call next address) := by
  have target := Machine.answers_offsetOf (m := m) rfl address
  refine target.bind fun target _ => ?_
  exact (Machine.answers_push (addressOf next)).andThen fun pushed _ => ⟨_, rfl⟩

theorem Machine.answers_ret (m : Machine) : m.Answers [.word, .cell m.top] m.ret := by
  refine m.answers_pop.bind fun result popped => ?_
  obtain ⟨value, n⟩ := result
  obtain ⟨rfl, kept, _⟩ := Machine.pop_eq_ok popped
  exact Machine.answers_jump (by rw [kept]) m.top

theorem Machine.answers_count (m : Machine) (loc : Loc) (delta : UInt16) :
    m.Answers (m.operandDemands loc) (m.count loc delta) := by
  refine (m.answers_load loc).andThen fun value loaded => ?_
  have met := (m.answers_load loc).ok_iff.mp ⟨value, loaded⟩
  obtain ⟨stored, ok⟩ := (m.answers_store loc (value.toUInt16 + delta).toUInt8).ok_iff.mpr met
  exact ⟨_, congrArg (· >>= _) ok⟩

theorem Machine.answers_execute (m : Machine) {i : Instr} (h : i.Canonical) :
    m.Answers (m.demands i) (m.execute i) := by
  cases i with
  | mov dest src =>
    refine Machine.answers_of_perform ?_ fun _ _ => rfl
    exact (m.answers_load src).bind fun value _ => m.answers_store dest value
  | mvi dest value => exact Machine.answers_of_perform (m.answers_store dest value) fun _ _ => rfl
  | lxi pair value => exact Machine.answers_of_perform (m.answers_setPair pair value) fun _ _ => rfl
  | lda address =>
    refine Machine.answers_of_perform ?_ fun _ _ => rfl
    exact (Machine.answers_read rfl address).andThen fun value _ => ⟨_, rfl⟩
  | sta address => exact Machine.answers_of_perform (Machine.answers_write rfl address _) fun _ _ => rfl
  | lhld address =>
    refine Machine.answers_of_perform ?_ fun _ _ => rfl
    refine (Machine.answers_read rfl address).bind fun low _ => ?_
    exact (Machine.answers_read rfl (address + 1)).andThen fun high _ => ⟨_, rfl⟩
  | shld address =>
    refine Machine.answers_of_perform ?_ fun _ _ => rfl
    refine (Machine.answers_write rfl address m.registers.l).bind fun n written => ?_
    exact Machine.answers_write (by rw [Machine.write_eq_ok written]) (address + 1) m.registers.h
  | ldax pair =>
    refine Machine.answers_of_perform ?_ fun _ _ => rfl
    exact (Machine.answers_read rfl (m.pair pair)).andThen fun value _ => ⟨_, rfl⟩
  | stax pair => exact Machine.answers_of_perform (Machine.answers_write rfl (m.pair pair) _) fun _ _ => rfl
  | alu op src =>
    refine Machine.answers_of_perform ?_ fun _ _ => rfl
    exact (m.answers_load src).andThen fun value _ => ⟨_, rfl⟩
  | inr loc => exact Machine.answers_of_perform (m.answers_count loc 1) fun _ _ => rfl
  | dcr loc => exact Machine.answers_of_perform (m.answers_count loc (-1)) fun _ _ => rfl
  | inx pair => exact Machine.answers_of_perform (m.answers_setPair pair _) fun _ _ => rfl
  | dcx pair => exact Machine.answers_of_perform (m.answers_setPair pair _) fun _ _ => rfl
  | sphl => exact Machine.answers_of_perform (m.answers_setPair .sp _) fun _ _ => rfl
  | push pair => exact Machine.answers_of_perform (Machine.answers_push _) fun _ _ => rfl
  | pop pair =>
    refine Machine.answers_of_perform ?_ fun _ _ => rfl
    exact m.answers_pop.andThen fun result _ => Machine.setPair_of_ne_sp result.2 h result.1
  | xthl =>
    refine Machine.answers_of_perform ?_ fun _ _ => rfl
    refine m.answers_pop.andThen fun result popped => ?_
    obtain ⟨value, n⟩ := result
    obtain ⟨_, _, sp⟩ := Machine.pop_eq_ok popped
    exact ⟨_, congrArg (· >>= _) (Machine.push_of_room sp _)⟩
  | jmp address => exact Machine.answers_jump rfl address
  | pchl => exact Machine.answers_jump rfl (m.pair .hl)
  | call address => exact m.answers_call _ address
  | ret => exact m.answers_ret
  | rst vector => exact (Machine.answers_push _).map _
  | jmpIf condition address => exact (Machine.answers_jump rfl address).ite (condition.holds m.flags) _
  | callIf condition address => exact (m.answers_call _ address).ite (condition.holds m.flags) _
  | retIf condition => exact m.answers_ret.ite (condition.holds m.flags) _
  | _ => exact Machine.answers_of_perform (m.answers_ok _) fun _ _ => rfl

end I8080
