import I8080.Proofs.WordStep

namespace I8080

namespace Process

variable {α β : Type}

/-- A process changes the machine in place as the typed operation does. -/
def Does (p : Process Unit) (m : Machine) (r : Except Fault Machine) : Prop :=
  p.Follows m (r.map fun n => ((), n))

theorem does_of_exec {p : Process Unit} {m n : Machine} (h : p.exec m.toWords = some (.ok (), n.toWords)) :
    p.Does m (.ok n) :=
  h

theorem Does.bind_value {p : Process α} {m : Machine} {r : Except Fault α}
    (h : p.Commits m (r.map fun a => (a, m))) {next : α → Process Unit} {rest : α → Except Fault Machine}
    (later : ∀ a, r = .ok a → (next a).Does m (rest a)) : (p >>= next).Does m (r >>= rest) := by
  cases r with
  | error f => exact ⟨m.toWords, exec_bind_error h next⟩
  | ok a => exact follows_bind h (later a rfl)

theorem Does.bind_pair {p : Process α} {m : Machine} {r : Except Fault (α × Machine)} (h : p.Follows m r)
    {next : α → Process Unit} {rest : α × Machine → Except Fault Machine}
    (later : ∀ a n, r = .ok (a, n) → (next a).Does n (rest (a, n))) : (p >>= next).Does m (r >>= rest) := by
  have all : (p >>= next).Follows m (r >>= fun out => (rest out).map fun n => ((), n)) := h.bind later
  cases r with
  | error f => exact all
  | ok out => exact all

theorem Does.bind_machine {p : Process Unit} {m : Machine} {r : Except Fault Machine} (h : p.Does m r)
    {next : Unit → Process Unit} {rest : Machine → Except Fault Machine}
    (later : ∀ n, r = .ok n → (next ()).Does n (rest n)) : (p >>= next).Does m (r >>= rest) := by
  have all : (p >>= next).Does m ((r.map fun n => ((), n)) >>= fun out => rest out.2) := by
    refine Does.bind_pair h fun _ n typed => ?_
    cases r with
    | error f => cases typed
    | ok n =>
      cases typed
      exact later n rfl
  cases r with
  | error f => exact all
  | ok n => exact all

theorem does_bind {p : Process α} {m : Machine} {a : α} (h : p.exec m.toWords = some (.ok a, m.toWords))
    {next : α → Process Unit} {r : Except Fault Machine} (later : (next a).Does m r) : (p >>= next).Does m r :=
  follows_bind h later

theorem does_store (m : Machine) (loc : Loc) (value : UInt8) : (store loc value).Does m (m.store loc value) :=
  (commits_store m loc value).follows

theorem does_write (m : Machine) (address : UInt16) (value : UInt8) :
    (write address value).Does m (m.write address value) :=
  (commits_write m address value).follows

theorem does_setPair (m : Machine) (p : RegPair) (value : UInt16) : (setPair p value).Does m (m.setPair p value) :=
  (commits_setPair m p value).follows

theorem does_accumulate (m : Machine) (op : AluOp) (value : UInt8) :
    (accumulate op value).Does m (.ok (m.accumulate op value)) :=
  does_of_exec rfl

theorem flags_store {m n : Machine} {loc : Loc} {value : UInt8} (h : m.store loc value = .ok n) :
    n.flags = m.flags := by
  cases loc with
  | reg r =>
    cases h
    rfl
  | mem => rw [Machine.write_eq_ok h]

theorem does_count (m : Machine) (loc : Loc) (delta : UInt16) : (count loc delta).Does m (m.count loc delta) := by
  refine Does.bind_value (commits_load m loc) fun value _ => ?_
  refine (does_store m loc _).bind_machine fun n stored => ?_
  refine does_of_exec ((exec_modify _ _).trans ?_)
  rw [← flags_store stored]
  rfl

theorem does_perform (m : Machine) (i : Instr) : (perform i).Does m (m.perform i) := by
  cases i with
  | hlt => exact does_of_exec rfl
  | mov dest src => exact Does.bind_value (commits_load m src) fun value _ => does_store m dest value
  | mvi dest value => exact does_store m dest value
  | lxi p value => exact does_setPair m p value
  | lda address => exact Does.bind_value (commits_read m address) fun value _ => does_of_exec rfl
  | sta address => exact does_bind rfl (does_write m address m.registers.a)
  | lhld address =>
    refine Does.bind_value (commits_read m address) fun low _ => ?_
    refine Does.bind_value (commits_read m (address + 1)) fun high _ => ?_
    refine does_of_exec ?_
    simp only [Word.low_join, Word.high_join]
    rfl
  | shld address =>
    refine does_bind rfl ?_
    refine (does_write m address m.registers.l).bind_machine fun n written => ?_
    have kept := Machine.write_eq_ok written
    refine does_bind rfl ?_
    rw [show n.toWords.registers.get .h = m.registers.h by rw [kept]; rfl]
    exact does_write n (address + 1) m.registers.h
  | ldax p =>
    refine does_bind (exec_pair m p) ?_
    exact Does.bind_value (commits_read m (m.pair p)) fun value _ => does_of_exec rfl
  | stax p => exact does_bind (exec_pair m p) (does_bind rfl (does_write m (m.pair p) m.registers.a))
  | xchg => exact does_of_exec rfl
  | alu op src => exact Does.bind_value (commits_load m src) fun value _ => does_accumulate m op value
  | aluImmediate op value => exact does_accumulate m op value
  | inr loc => exact does_count m loc 1
  | dcr loc => exact does_count m loc (-1)
  | inx p => exact does_bind (exec_pair m p) (does_setPair m p _)
  | dcx p => exact does_bind (exec_pair m p) (does_setPair m p _)
  | dad p => exact does_bind (exec_pair m .hl) (does_bind (exec_pair m p) (does_of_exec rfl))
  | push p => exact does_bind (exec_pair m p) (follows_pushWord m _)
  | pop p => exact Does.bind_pair (follows_popWord m) fun value n _ => does_setPair n p value
  | xthl =>
    refine Does.bind_pair (follows_popWord m) fun top n popped => ?_
    obtain ⟨_, kept, _⟩ := Machine.pop_eq_ok popped
    have hl : n.pair .hl = m.pair .hl := by
      rw [kept]
      rfl
    refine does_bind (exec_pair n .hl) ?_
    rw [hl]
    exact Does.bind_machine (follows_pushWord n _) fun pushed _ => does_setPair pushed .hl top
  | sphl => exact does_bind (exec_pair m .hl) (does_setPair m .sp _)
  | _ => exact does_of_exec rfl

theorem Does.bind_offset {m : Machine} {address : UInt16} {next : UInt16 → Process Unit}
    {rest : Offset → Except Fault Machine} (later : ∀ offset, (next (UInt16.ofNat offset.val)).Does m (rest offset)) :
    (offsetOf address >>= next).Does m (m.offsetOf address >>= rest) := by
  have offset := commits_offsetOf m address
  cases ho : m.offsetOf address with
  | error f =>
    rw [ho] at offset
    exact ⟨m.toWords, exec_bind_error offset next⟩
  | ok o =>
    rw [ho] at offset
    exact follows_bind offset (later o)

theorem does_goto (m : Machine) {n : Nat} (small : n < 65536) :
    (setPc (UInt16.ofNat n)).Does m (.ok (m.goto n)) :=
  does_of_exec (exec_setPc m small)

theorem does_goto_offset (m : Machine) (next : Offset) :
    (setPc (UInt16.ofNat next.val)).Does m (.ok (m.goto next.val)) := by
  have bound := next.isLt
  have size : windowSize = 944 := rfl
  exact does_goto m (by omega)

theorem does_jump (m : Machine) (address : UInt16) : (offsetOf address >>= setPc).Does m (m.jump address) := by
  have typed : m.jump address = m.offsetOf address >>= fun offset => .ok (m.goto offset.val) := by
    rw [Machine.jump_eq]
    cases m.offsetOf address <;> rfl
  rw [typed]
  exact Does.bind_offset fun offset => does_goto_offset m offset

theorem does_call (m : Machine) (next : Offset) (address : UInt16) :
    (call (UInt16.ofNat next.val) address >>= setPc).Does m (m.call next address) := by
  have typed : m.call next address = m.offsetOf address >>= fun target =>
      m.push (addressOf next) >>= fun pushed => .ok (pushed.goto target.val) := by
    unfold Machine.call
    cases m.offsetOf address <;> rfl
  rw [typed, call, bind_assoc]
  refine Does.bind_offset fun target => ?_
  rw [bind_assoc]
  exact Does.bind_machine (follows_pushWord m _) fun pushed _ => does_goto_offset pushed target

theorem does_ret (m : Machine) : (ret >>= setPc).Does m m.ret := by
  rw [ret, bind_assoc]
  exact Does.bind_pair (follows_popWord m) fun address popped _ => does_jump popped address

/-- A transfer that is made only under a condition. -/
theorem does_conditional {m : Machine} {p : Process UInt16} {r : Except Fault Machine}
    (taken : (p >>= setPc).Does m r) (condition : Condition) (next : Offset) :
    ((do if condition.holds (← get).flags then p else return UInt16.ofNat next.val) >>= setPc).Does m
      (if condition.holds m.flags then r else .ok (m.goto next.val)) := by
  rw [bind_assoc]
  refine does_bind (exec_get _) ?_
  have flags : m.toWords.flags = m.flags := rfl
  rw [flags]
  cases condition.holds m.flags with
  | true => exact taken
  | false => exact does_goto_offset m next

theorem does_transfer (m : Machine) (next : Offset) (i : Instr) :
    (transfer (UInt16.ofNat next.val) i >>= setPc).Does m (m.transfer next i) := by
  cases i with
  | jmp address => exact does_jump m address
  | jmpIf condition address => exact does_conditional (does_jump m address) condition next
  | call address => exact does_call m next address
  | callIf condition address => exact does_conditional (does_call m next address) condition next
  | ret => exact does_ret m
  | retIf condition => exact does_conditional (does_ret m) condition next
  | rst vector =>
    have small : 8 * vector.val < 65536 := by
      have := vector.isLt
      omega
    have typed : m.transfer next (.rst vector) =
        m.push (addressOf next) >>= fun pushed => .ok (pushed.goto (8 * vector.val)) := by
      change (m.push (addressOf next)).map (fun pushed => pushed.goto (8 * vector.val)) = _
      cases m.push (addressOf next) <;> rfl
    rw [typed]
    change ((pushWord (addressOf next) >>= fun _ => pure (UInt16.ofNat (8 * vector.val))) >>= setPc).Does m _
    rw [bind_assoc]
    exact Does.bind_machine (follows_pushWord m _) fun pushed _ => does_goto pushed small
  | pchl =>
    change ((pair .hl >>= offsetOf) >>= setPc).Does m _
    rw [bind_assoc]
    exact does_bind (exec_pair m .hl) (does_jump m _)
  | _ => exact does_goto_offset m next

theorem does_execute (m : Machine) (i : Instr) : (execute i).Does m (m.execute i) := by
  have pc := m.toNat_pc_toWords
  have bound := m.pc.isLt
  have size : windowSize = 944 := rfl
  have length : i.size ≤ 3 := by cases i <;> simp [Instr.size]
  have number := toNat_ofNat_of_le_windowSize (n := i.size) (by omega)
  have past : wrap (m.toWords.pc + UInt16.ofNat i.size).toNat = UInt16.ofNat (m.past i).val := by
    rw [UInt16.toNat_add, pc, number, Nat.mod_eq_of_lt (by omega)]
    rfl
  refine does_bind (exec_get _) (does_bind (exec_add (by omega) _) ?_)
  rw [past]
  exact (does_perform m i).bind_machine fun n _ => does_transfer n (m.past i) i

theorem exec_byteAt (m : Machine) {n : Nat} (small : n < 65536) :
    (byteAt (UInt16.ofNat n)).exec m.toWords = some (.ok (m.memory.wrapped n), m.toWords) := by
  have offset : (wrap n).toNat = (Offset.wrap n).val := toNat_ofNat_offset (Offset.wrap n)
  unfold byteAt
  rw [UInt16.toNat_ofNat_of_lt' small, offset, exec_byteIn (Offset.wrap n).isLt]
  rfl

/-- Three bytes are read from the program counter on, and none of the sums of offsets overflows. -/
theorem commits_fetch (m : Machine) : fetch.Commits m (m.fetch.map fun i => (i, m)) := by
  have pc := m.toNat_pc_toWords
  have bound := m.pc.isLt
  have size : windowSize = 944 := rfl
  have one : (1 : UInt16).toNat = 1 := rfl
  have two : (2 : UInt16).toNat = 2 := rfl
  have opcode : (byteAt m.toWords.pc).exec m.toWords = some (.ok m.memory[m.pc], m.toWords) := by
    have wrapped : m.memory.wrapped m.pc.val = m.memory[m.pc] := Image.wrapped_of_lt _ bound
    exact (exec_byteAt m (n := m.pc.val) (by omega)).trans (by rw [wrapped])
  have low : (byteAt (m.toWords.pc + 1)).exec m.toWords =
      some (.ok (m.memory.wrapped (m.pc + 1)), m.toWords) := by
    have sum : m.toWords.pc + 1 = UInt16.ofNat (m.pc.val + 1) := (UInt16.ofNat_add m.pc.val 1).symm
    rw [sum]
    exact exec_byteAt m (by omega)
  have high : (byteAt (m.toWords.pc + 2)).exec m.toWords =
      some (.ok (m.memory.wrapped (m.pc + 2)), m.toWords) := by
    have sum : m.toWords.pc + 2 = UInt16.ofNat (m.pc.val + 2) := (UInt16.ofNat_add m.pc.val 2).symm
    rw [sum]
    exact exec_byteAt m (by omega)
  have run : fetch.exec m.toWords = (decodeAt m.toWords.pc m.memory[m.pc] (m.memory.wrapped (m.pc + 1))
      (m.memory.wrapped (m.pc + 2))).exec m.toWords := by
    refine (exec_bind_ok (exec_get _) _).trans ?_
    refine (exec_bind_ok opcode _).trans ?_
    refine (exec_bind_ok (exec_add (by omega) _) _).trans ((exec_bind_ok low _).trans ?_)
    exact (exec_bind_ok (exec_add (by omega) _) _).trans (exec_bind_ok high _)
  cases hd : Instr.decode m.memory[m.pc] (m.memory.wrapped (m.pc + 1)) (m.memory.wrapped (m.pc + 2)) with
  | some i =>
    have typed : m.fetch = .ok i := by simp only [Machine.fetch, hd]
    rw [typed]
    exact run.trans (by rw [decodeAt, hd]; rfl)
  | none =>
    have typed : m.fetch = .error (.unknownOpcode m.memory[m.pc] m.pc) := by simp only [Machine.fetch, hd]
    rw [typed]
    exact run.trans (by rw [decodeAt, hd]; rfl)

theorem commits_onCopy {p : Process Unit} {m : Machine} {r : Except Fault Machine} (h : p.Does m r) :
    (onCopy p).Commits m (r.map fun n => ((), n)) := by
  cases r with
  | ok n =>
    refine (exec_bind_ok (exec_get _) _).trans ?_
    have run : p.exec m.toWords = some (.ok (), n.toWords) := h
    simp only [run]
    rfl
  | error f =>
    obtain ⟨w, run⟩ := h
    refine (exec_bind_ok (exec_get _) _).trans ?_
    simp only [run]
    rfl

end Process

/-- The instruction that a step has executed, and the machine after it. -/
def Step.outcome (m : Machine) : Step → Option Instr × Machine
  | .executed i n => (some i, n)
  | .halted => (none, m)

theorem Machine.step_of_running {m : Machine} (running : m.halted = false) :
    m.step = m.fetch >>= fun i => (m.execute i).map (Step.executed i) := by
  unfold Machine.step
  rw [running]
  rfl

/-- A step in place is the typed step, and one that faults leaves the machine as it was. -/
theorem Process.commits_step (m : Machine) : Process.step.Commits m (m.step.map (Step.outcome m)) := by
  have started : Process.step.exec m.toWords = _ := exec_bind_ok (exec_get m.toWords) _
  cases halted : m.toWords.halted with
  | true =>
    have typed : m.step = .ok .halted := if_pos halted
    rw [typed]
    simp only [halted, if_true] at started
    exact started
  | false =>
    simp only [halted, Bool.false_eq_true, if_false] at started
    rw [Machine.step_of_running halted]
    have fetched := commits_fetch m
    cases hf : m.fetch with
    | error f =>
      rw [hf] at fetched
      exact started.trans (exec_bind_error fetched _)
    | ok i =>
      rw [hf] at fetched
      have executed := commits_onCopy (does_execute m i)
      have run := started.trans (exec_bind_ok fetched _)
      change Process.step.Commits m (((m.execute i).map (Step.executed i)).map (Step.outcome m))
      cases he : m.execute i with
      | error f =>
        rw [he] at executed
        exact run.trans (exec_bind_error executed _)
      | ok n =>
        rw [he] at executed
        exact run.trans (exec_bind_ok executed _)

/-- The next machine is worked out on a copy, so that the machine itself stays as it is. -/
theorem Process.exec_next (m : Machine) :
    Process.next.exec m.toWords = some ((m.next.map Machine.toWords).mapError Fault.toWords, m.toWords) := by
  have stepped := commits_step m
  have started : Process.next.exec m.toWords = _ := exec_bind_ok (exec_get m.toWords) _
  unfold Machine.next
  cases hs : m.step with
  | ok s =>
    rw [hs] at stepped
    have run : Process.step.exec m.toWords = some (.ok (s.outcome m).1, (s.outcome m).2.toWords) := stepped
    simp only [run] at started
    cases s with
    | executed i n => exact started
    | halted => exact started
  | error f =>
    rw [hs] at stepped
    have run : Process.step.exec m.toWords = some (.error f.toWords, m.toWords) := stepped
    simp only [run] at started
    exact started

end I8080
