import I8080.Proofs.Footprint

namespace I8080

/-- A run of successful steps. -/
structure Course where
  length : Nat
  state : Nat → Machine
  next : ∀ k, k < length → (state k).next = .ok (state (k + 1))

/-- The instructions that put a word on the stack, if only when a condition holds. -/
def Instr.pushes : Instr → Bool
  | .push _ | .call _ | .callIf .. | .rst _ => true
  | _ => false

/-- The instructions that take a word off the stack, if only when a condition holds. -/
def Instr.pops : Instr → Bool
  | .pop _ | .ret | .retIf _ => true
  | _ => false

/-- The step from one machine to the next writes memory only to push, and moves the stack pointer only to push
or pop. -/
structure Machine.KeepsStack (m n : Machine) : Prop where
  memory : ∀ i, m.current? = some i → i.pushes = false → n.memory = m.memory
  sp : ∀ i, m.current? = some i → i.pushes = false → i.pops = false → n.sp = m.sp

/-- Whether an instruction leaves the address after it on the stack and goes elsewhere. -/
def Machine.Calls (m : Machine) : Instr → Prop
  | .call _ | .rst _ => True
  | .callIf condition _ => condition.holds m.flags = true
  | _ => False

/-- Whether an instruction goes to the address on the stack. -/
def Machine.Returns (m : Machine) : Instr → Prop
  | .ret => True
  | .retIf condition => condition.holds m.flags = true
  | _ => False

/-- A word stands at `frame`, and the stack has grown by whole words below it. -/
structure Machine.Guards (m : Machine) (frame : Nat) (w : UInt16) : Prop where
  low : m.memory[frame]? = some (Word.low w)
  high : m.memory[frame + 1]? = some (Word.high w)
  depth : ∃ words, m.sp.val + 2 * words = frame

theorem Machine.calls_eq_ok {m n : Machine} {i : Instr} (calls : m.Calls i) (h : m.execute i = .ok n) :
    ∃ pushed target, m.push (addressOf (m.past i)) = .ok pushed ∧ n = pushed.goto target := by
  have of_call : ∀ address, m.call (m.past i) address = .ok n →
      ∃ pushed target, m.push (addressOf (m.past i)) = .ok pushed ∧ n = pushed.goto target := by
    intro address call
    obtain ⟨target, -, call⟩ := exists_of_bind_eq_ok call
    obtain ⟨pushed, push, done⟩ := exists_of_bind_eq_ok call
    cases done
    exact ⟨pushed, _, push, rfl⟩
  obtain ⟨k, perform, transfer⟩ := exists_of_bind_eq_ok h
  cases i with
  | call address =>
    cases perform
    exact of_call address transfer
  | callIf condition address =>
    cases perform
    rcases Machine.ite_eq_ok transfer with ⟨-, call⟩ | ⟨fails, -⟩
    · exact of_call address call
    · cases calls.symm.trans fails
  | rst vector =>
    cases perform
    obtain ⟨pushed, push, done⟩ := exists_of_map_eq_ok transfer
    exact ⟨pushed, _, push, done.symm⟩
  | _ => exact absurd calls not_false

theorem Machine.returns_eq_ok {m n : Machine} {i : Instr} (returns : m.Returns i) (h : m.execute i = .ok n) :
    m.ret = .ok n := by
  obtain ⟨k, perform, transfer⟩ := exists_of_bind_eq_ok h
  cases i with
  | ret =>
    cases perform
    exact transfer
  | retIf condition =>
    cases perform
    rcases Machine.ite_eq_ok transfer with ⟨-, ret⟩ | ⟨fails, -⟩
    · exact ret
    · cases returns.symm.trans fails
  | _ => exact absurd returns not_false

theorem Machine.guards_of_calls {m n : Machine} {i : Instr} (calls : m.Calls i) (h : m.execute i = .ok n) :
    ∃ frame, m.sp.val = frame + 2 ∧ n.Guards frame (addressOf (m.past i)) := by
  obtain ⟨pushed, target, push, rfl⟩ := Machine.calls_eq_ok calls h
  obtain ⟨k, room, rfl⟩ := Machine.push_eq_ok push
  have low : k < windowSize := by omega
  have high : k + 1 < windowSize := by omega
  refine ⟨k, room, ?_, ?_, 0, rfl⟩
  · simp [Machine.goto, low]
  · simp [Machine.goto, high]

theorem Machine.pc_of_ret {m n : Machine} (h : m.ret = .ok n) : n.pc.val = (m.top - windowBase).toNat := by
  obtain ⟨⟨address, popped⟩, pop, jump⟩ := exists_of_bind_eq_ok h
  obtain ⟨rfl, -, -⟩ := Machine.pop_eq_ok pop
  exact Machine.pc_of_jump jump

theorem Machine.Guards.top_eq {m : Machine} {frame : Nat} {w : UInt16} (h : m.Guards frame w)
    (here : m.sp.val = frame) : m.top = w := by
  obtain ⟨inside, low⟩ := Vector.getElem?_eq_some_iff.mp h.low
  obtain ⟨inside', high⟩ := Vector.getElem?_eq_some_iff.mp h.high
  rw [Machine.top, here, Image.wrapped_of_lt _ inside, Image.wrapped_of_lt _ inside', low, high, Word.join_low_high]

theorem addressOf_sub_windowBase (offset : Offset) : (addressOf offset.val - windowBase).toNat = offset.val := by
  rw [addressOf, UInt16.add_comm, UInt16.add_sub_cancel, toNat_ofNat_offset]

/-- What a step does to the stack when it keeps to it: nothing, one push or one pop. -/
theorem Machine.stack_cases {m n : Machine} (keeps : m.KeepsStack n) (next : m.next = .ok n) :
    n.sp = m.sp ∧ n.memory = m.memory ∨
      n.sp.val + 2 = m.sp.val ∧ m.Changes (.stackPointer :: m.below) n ∨
      n.sp.val = m.sp.val + 2 ∧ n.memory = m.memory := by
  obtain ⟨outcome, step, done⟩ := exists_of_bind_eq_ok next
  cases outcome with
  | halted =>
    cases done
    exact .inl ⟨rfl, rfl⟩
  | executed i k =>
    cases done
    obtain ⟨-, current, execute⟩ := Machine.step_eq_executed step
    have changes := Machine.changes_execute execute
    have moves := Machine.movesStack_execute (Instr.canonical_of_decode current) execute
    have memory := keeps.memory i current
    have sp := keeps.sp i current
    cases i with
    | push pair => exact .inr (.inl ⟨moves, changes⟩)
    | call address => exact .inr (.inl ⟨moves, changes⟩)
    | rst vector => exact .inr (.inl ⟨moves, changes⟩)
    | callIf condition address =>
      change m.Changes (if condition.holds m.flags then .stackPointer :: m.below else []) n at changes
      change if condition.holds m.flags then n.sp.val + 2 = m.sp.val else n.sp = m.sp at moves
      by_cases holds : condition.holds m.flags = true
      · rw [if_pos holds] at changes moves
        exact .inr (.inl ⟨moves, changes⟩)
      · rw [if_neg holds] at changes moves
        exact .inl ⟨moves, by rw [changes.eq_of_nil]⟩
    | pop pair => exact .inr (.inr ⟨moves, memory rfl⟩)
    | ret => exact .inr (.inr ⟨moves, memory rfl⟩)
    | retIf condition =>
      change if condition.holds m.flags then n.sp.val = m.sp.val + 2 else n.sp = m.sp at moves
      by_cases holds : condition.holds m.flags = true
      · rw [if_pos holds] at moves
        exact .inr (.inr ⟨moves, memory rfl⟩)
      · rw [if_neg holds] at moves
        exact .inl ⟨moves, memory rfl⟩
    | _ => exact .inl ⟨sp rfl rfl, memory rfl⟩

theorem Machine.Guards.next {m n : Machine} {frame : Nat} {w : UInt16} (h : m.Guards frame w)
    (keeps : m.KeepsStack n) (next : m.next = .ok n) (under : n.sp.val < frame + 2) : n.Guards frame w := by
  obtain ⟨words, depth⟩ := h.depth
  rcases Machine.stack_cases keeps next with ⟨sp, memory⟩ | ⟨sp, changes⟩ | ⟨sp, memory⟩
  · exact ⟨memory ▸ h.low, memory ▸ h.high, words, by rw [sp]; exact depth⟩
  · have cell : ∀ offset, frame ≤ offset → n.memory[offset]? = m.memory[offset]? := by
      intro offset above
      refine changes (.cell offset) ?_
      simp [Machine.below]
      omega
    exact ⟨(cell _ (by omega)).trans h.low, (cell _ (by omega)).trans h.high, words + 1, by omega⟩
  · exact ⟨memory ▸ h.low, memory ▸ h.high, words - 1, by omega⟩

theorem Course.guards (c : Course) (keeps : ∀ k, k < c.length → (c.state k).KeepsStack (c.state (k + 1)))
    {first last frame : Nat} {w : UInt16} (start : (c.state first).Guards frame w) (later : first ≤ last)
    (inside : last ≤ c.length) (below : ∀ k, first ≤ k → k ≤ last → (c.state k).sp.val < frame + 2) :
    (c.state last).Guards frame w := by
  induction later with
  | refl => exact start
  | @step k later ih =>
    have before := ih (by omega) fun j after upTo => below j after (by omega)
    have under := below (k + 1) (Nat.le_succ_of_le later) (Nat.le_refl _)
    exact before.next (keeps k (by omega)) (c.next k (by omega)) under

/-- In a run that keeps to the stack, a return that takes off what a call has put on it goes on after the call. -/
theorem Course.return_follows_call (c : Course)
    (keeps : ∀ k, k < c.length → (c.state k).KeepsStack (c.state (k + 1)))
    {a b : Nat} {i j : Instr} (later : a < b) (inside : b < c.length)
    (called : (c.state a).step = .ok (.executed i (c.state (a + 1)))) (calls : (c.state a).Calls i)
    (returned : (c.state b).step = .ok (.executed j (c.state (b + 1)))) (returns : (c.state b).Returns j)
    (back : (c.state (b + 1)).sp = (c.state a).sp)
    (below : ∀ k, a < k → k ≤ b → (c.state k).sp < (c.state a).sp) :
    (c.state (b + 1)).pc = Offset.wrap ((c.state a).pc + i.size) := by
  obtain ⟨-, -, calling⟩ := Machine.step_eq_executed called
  obtain ⟨-, -, returning⟩ := Machine.step_eq_executed returned
  obtain ⟨frame, top, guarded⟩ := Machine.guards_of_calls calls calling
  have held := c.guards keeps guarded later (by omega) fun k after upTo => by
    have under : (c.state k).sp.val < (c.state a).sp.val := below k after upTo
    omega
  have ret_ok := Machine.returns_eq_ok returns returning
  have raised := Machine.sp_of_ret ret_ok
  have here : (c.state b).sp.val = frame := by
    rw [back] at raised
    omega
  apply Fin.ext
  rw [Machine.pc_of_ret ret_ok, held.top_eq here, addressOf_sub_windowBase]
  rfl

/-- An image of `ret` instructions, but for a call at its end whose address stands at its start. -/
def Image.wrappedCall : Image :=
  Image.write (.replicate windowSize 0xC9) 0 [0x10, 0x08] |>.set 943 0xCD

set_option maxRecDepth 8000 in
def Course.wrappedCall : Course where
  length := 2
  state
    | 0 => { memory := .wrappedCall, pc := 943, sp := 512 }
    | 1 => { memory := (Image.wrappedCall.set 511 0x08).set 510 0x02, pc := 16, sp := 510 }
    | _ => { memory := (Image.wrappedCall.set 511 0x08).set 510 0x02, pc := 2, sp := 512 }
  next k hk := by
    match k with
    | 0 => rfl
    | 1 => rfl

set_option maxRecDepth 8000 in
theorem Course.return_follows_call_wrapped :
    (Course.wrappedCall.state 0).step = .ok (.executed (.call 0x0810) (Course.wrappedCall.state 1)) ∧
      (Course.wrappedCall.state 1).step = .ok (.executed .ret (Course.wrappedCall.state 2)) ∧
      (Course.wrappedCall.state 2).pc = Offset.wrap (943 + 3) := by
  have called : (Course.wrappedCall.state 0).step = .ok (.executed (.call 0x0810) (Course.wrappedCall.state 1)) := rfl
  have returned : (Course.wrappedCall.state 1).step = .ok (.executed .ret (Course.wrappedCall.state 2)) := rfl
  have keeps : ∀ k, k < 2 → (Course.wrappedCall.state k).KeepsStack (Course.wrappedCall.state (k + 1)) := by
    intro k hk
    match k with
    | 0 =>
      have current := (Machine.step_eq_executed called).2.1
      refine ⟨fun i hi pushes => ?_, fun i hi pushes => ?_⟩
      · cases current.symm.trans hi
        cases pushes
      · cases current.symm.trans hi
        cases pushes
    | 1 =>
      have current := (Machine.step_eq_executed returned).2.1
      refine ⟨fun _ _ _ => rfl, fun i hi _ pops => ?_⟩
      cases current.symm.trans hi
      cases pops
  refine ⟨called, returned, ?_⟩
  refine Course.return_follows_call .wrappedCall keeps (a := 0) (b := 1) (by decide) (by decide) called trivial
    returned trivial rfl fun k after upTo => ?_
  obtain rfl : k = 1 := by omega
  decide

end I8080
