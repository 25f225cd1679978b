import I8080.Proofs.Nesting

namespace I8080

/-- What conditional jumps, calls and returns ask for, in the order of the field in their opcodes: a suffix, a flag
and whether it is to be set. -/
def conditionTable : List (String × Flag × Bool) :=
  [("nz", .zero, false), ("z", .zero, true), ("nc", .carry, false), ("c", .carry, true),
    ("po", .parity, false), ("pe", .parity, true), ("p", .sign, false), ("m", .sign, true)]

def Machine.Meets (m : Machine) (condition : Condition) : Prop :=
  ∃ flag, conditionTable[condition.code.val]? = some (condition.suffix, flag, m.flags.get flag)

def Machine.StandsAt (m : Machine) (address : UInt16) : Prop :=
  address.toNat = 0x0800 + m.pc.val

/-- Where control goes on through an instruction that the first machine executes and the second comes of. -/
def Machine.GoesOn (m : Machine) (i : Instr) (n : Machine) : Prop :=
  match i with
  | .jmp address | .call address => n.StandsAt address
  | .jmpIf condition address | .callIf condition address =>
    (m.Meets condition → n.StandsAt address) ∧ (¬m.Meets condition → n.pc = m.past i)
  | .ret => n.StandsAt m.top
  | .retIf condition => (m.Meets condition → n.StandsAt m.top) ∧ (¬m.Meets condition → n.pc = m.past i)
  | .rst vector => n.pc.val = 8 * vector.val
  | .pchl => n.StandsAt (m.pair .hl)
  | _ => n.pc = m.past i

/-- Each condition tests the flag that stands in the table at the field of its opcodes. -/
theorem conditionTable_code (condition : Condition) : ∃ flag set,
    conditionTable[condition.code.val]? = some (condition.suffix, flag, set) ∧
      ∀ flags, condition.holds flags = true ↔ flags.get flag = set := by
  cases condition
  all_goals
    refine ⟨_, _, rfl, fun flags => ?_⟩
    simp [Condition.holds, Flags.get]

theorem Machine.meets_iff (m : Machine) (condition : Condition) :
    m.Meets condition ↔ condition.holds m.flags = true := by
  obtain ⟨flag, set, row, test⟩ := conditionTable_code condition
  rw [test]
  constructor
  · rintro ⟨other, same⟩
    cases row.symm.trans same
    rfl
  · intro value
    exact ⟨flag, by rw [row, value]⟩

theorem Machine.standsAt_goto {m n : Machine} {address : UInt16} {target : Offset}
    (found : m.offsetOf address = .ok target) : (n.goto target.val).StandsAt address := by
  have place := Machine.offsetOf_eq_ok found
  have inside := (sub_windowBase_lt_iff address).mp (place ▸ target.isLt)
  rw [toNat_sub_windowBase, if_pos inside.1] at place
  have here : (n.goto target.val).pc.val = target.val := congrArg Fin.val (Offset.wrap_val target)
  unfold Machine.StandsAt
  omega

theorem Machine.standsAt_of_jump {m n : Machine} {address : UInt16} (h : m.jump address = .ok n) :
    n.StandsAt address := by
  rw [Machine.jump_eq] at h
  obtain ⟨target, found, rfl⟩ := exists_of_map_eq_ok h
  exact Machine.standsAt_goto found

theorem Machine.standsAt_of_call {m n : Machine} {next : Offset} {address : UInt16}
    (h : m.call next address = .ok n) : n.StandsAt address := by
  obtain ⟨target, found, h⟩ := exists_of_bind_eq_ok h
  obtain ⟨pushed, -, done⟩ := exists_of_bind_eq_ok h
  cases done
  exact Machine.standsAt_goto found

theorem Machine.standsAt_of_ret {m n : Machine} (h : m.ret = .ok n) : n.StandsAt m.top := by
  obtain ⟨⟨address, popped⟩, pop, jump⟩ := exists_of_bind_eq_ok h
  obtain ⟨rfl, -, -⟩ := Machine.pop_eq_ok pop
  exact Machine.standsAt_of_jump jump

/-- A conditional transfer goes on where it transfers to if its condition is met, and else past itself. -/
theorem Machine.goesOn_ite {m n : Machine} {condition : Condition} {next : Offset} {attempt : Except Fault Machine}
    {P : Prop} (h : (if condition.holds m.flags then attempt else .ok (m.goto next)) = .ok n)
    (taken : attempt = .ok n → P) : (m.Meets condition → P) ∧ (¬m.Meets condition → n.pc = next) := by
  rw [m.meets_iff]
  rcases Machine.ite_eq_ok h with ⟨holds, ok⟩ | ⟨fails, rfl⟩
  · exact ⟨fun _ => taken ok, fun not => absurd holds not⟩
  · exact ⟨fun holds => absurd (holds.symm.trans fails) Bool.noConfusion, fun _ => Offset.wrap_val next⟩

theorem Machine.goesOn_execute {m n : Machine} {i : Instr} (h : m.execute i = .ok n) : m.GoesOn i n := by
  obtain ⟨k, perform, transfer⟩ := exists_of_bind_eq_ok h
  cases i with
  | jmp address =>
    cases perform
    exact Machine.standsAt_of_jump transfer
  | jmpIf condition address =>
    cases perform
    exact Machine.goesOn_ite transfer Machine.standsAt_of_jump
  | call address =>
    cases perform
    exact Machine.standsAt_of_call transfer
  | callIf condition address =>
    cases perform
    exact Machine.goesOn_ite transfer Machine.standsAt_of_call
  | ret =>
    cases perform
    exact Machine.standsAt_of_ret transfer
  | retIf condition =>
    cases perform
    exact Machine.goesOn_ite transfer Machine.standsAt_of_ret
  | rst vector =>
    cases perform
    obtain ⟨pushed, -, rfl⟩ := exists_of_map_eq_ok transfer
    have inside : 8 * vector.val < windowSize := by
      have size : windowSize = 944 := rfl
      omega
    exact Nat.mod_eq_of_lt inside
  | pchl =>
    cases perform
    have jump : m.jump (m.pair .hl) = .ok n := transfer
    exact Machine.standsAt_of_jump jump
  | _ =>
    cases transfer
    exact Offset.wrap_val _

theorem Machine.word_of_returns {m n : Machine} {i : Instr} (returns : m.Returns i) (h : m.execute i = .ok n) :
    m.sp.val + 2 ≤ windowSize := by
  have raised := Machine.sp_of_ret (Machine.returns_eq_ok returns h)
  have bound := n.sp.isLt
  omega

theorem Machine.top_of_calls {m n : Machine} {i : Instr} (calls : m.Calls i) (h : m.execute i = .ok n) :
    n.sp.val + 2 ≤ windowSize ∧ n.top = addressOf (m.past i) := by
  obtain ⟨frame, top, guarded⟩ := Machine.guards_of_calls calls h
  obtain ⟨pushed, target, push, rfl⟩ := Machine.calls_eq_ok calls h
  have moved := Machine.sp_of_push push
  have kept : (pushed.goto target).sp.val = pushed.sp.val := rfl
  have bound := m.sp.isLt
  exact ⟨by omega, guarded.top_eq (by omega)⟩

/-- After a step the program counter stands where the instruction transfers control to, and else past it. Who calls
leaves the address past the call on the stack. -/
theorem Machine.step_goes_on {m n : Machine} {i : Instr} (h : m.step = .ok (.executed i n)) :
    m.GoesOn i n ∧ (m.past i).val = (m.pc.val + i.size) % 944 ∧
      (∀ condition : Condition, condition.holds m.flags = true ↔ m.Meets condition) ∧
      (m.Returns i → m.sp.val + 2 ≤ windowSize) ∧
      (m.Calls i → n.sp.val + 2 ≤ windowSize ∧ n.top.toNat = 0x0800 + (m.pc.val + i.size) % 944) := by
  obtain ⟨-, -, execute⟩ := Machine.step_eq_executed h
  refine ⟨Machine.goesOn_execute execute, rfl, fun condition => (m.meets_iff condition).symm,
    fun returns => Machine.word_of_returns returns execute, fun calls => ?_⟩
  obtain ⟨room, top⟩ := Machine.top_of_calls calls execute
  refine ⟨room, ?_⟩
  rw [top, toNat_addressOf (Nat.le_of_lt (m.past i).isLt)]
  rfl

set_option maxRecDepth 8000 in
/-- The call that begins at the end of the window and has its address at the start. -/
theorem Machine.step_goes_on_wrapped :
    (Course.wrappedCall.state 0).step = .ok (.executed (.call 0x0810) (Course.wrappedCall.state 1)) ∧
      (Course.wrappedCall.state 1).pc.val = 16 ∧ (Course.wrappedCall.state 1).top = 0x0802 := by
  have step : (Course.wrappedCall.state 0).step = .ok (.executed (.call 0x0810) (Course.wrappedCall.state 1)) := rfl
  obtain ⟨goes, -, -, -, calls⟩ := Machine.step_goes_on step
  have target : (0x0810 : UInt16).toNat = 0x0800 + (Course.wrappedCall.state 1).pc.val := goes
  obtain ⟨-, top⟩ := calls trivial
  refine ⟨step, ?_, UInt16.toNat_inj.mp top⟩
  have number : (0x0810 : UInt16).toNat = 0x0810 := rfl
  omega

end I8080
