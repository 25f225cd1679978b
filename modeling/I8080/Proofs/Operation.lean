import I8080.Proofs.WordExecute

namespace I8080

/-- What can be done to a machine from outside, besides reading it: a step of it, a fresh start, and any
change to a part of it. -/
inductive Operation where
  | step
  | next
  | reset
  | load (image : Image)
  | setRegister (r : Register) (value : UInt8)
  | setPair (pair : RegPair) (value : UInt16)
  | setFlags (flags : Flags)
  | setPc (pc : UInt16)
  | setHalted (halted : Bool)
  | write (address : UInt16) (value : UInt8)
  | store (loc : Loc) (value : UInt8)
  | overwrite (image : Image)
  | pushByte (value : UInt8)
  | popByte
  | pushWord (value : UInt16)
  | popWord

/-- An operation in place, whose answer is not looked at. -/
def Operation.process : Operation → Process Unit
  | .step => do let _ ← Process.step
  | .next => do let _ ← Process.next
  | .reset => set ({} : WordMachine)
  | .load image => set ({ memory := image } : WordMachine)
  | .setRegister r value => Process.setRegister r value
  | .setPair pair value => Process.setPair pair value
  | .setFlags flags => Process.setFlags flags
  | .setPc pc => Process.setPc pc
  | .setHalted halted => modify fun w => { w with halted }
  | .write address value => Process.write address value
  | .store loc value => Process.store loc value
  | .overwrite image => modify fun w => { w with memory := image }
  | .pushByte value => Process.pushByte value
  | .popByte => do let _ ← Process.popByte
  | .pushWord value => Process.pushWord value
  | .popWord => do let _ ← Process.popWord

def Machine.orElse (m : Machine) : Except Fault Machine → Machine
  | .ok n => n
  | .error _ => m

/-- The machine after an operation, which may have failed, and failed half way. -/
def Operation.apply (m : Machine) : Operation → Machine
  | .step => m.orElse ((m.step.map (Step.outcome m)).map Prod.snd)
  | .next => m
  | .reset => {}
  | .load image => .ofImage image
  | .setRegister r value => m.setRegister r value
  | .setPair pair value => m.orElse (m.setPair pair value)
  | .setFlags flags => { m with flags }
  | .setPc pc => m.goto pc.toNat
  | .setHalted halted => { m with halted }
  | .write address value => m.orElse (m.write address value)
  | .store loc value => m.orElse (m.store loc value)
  | .overwrite image => { m with memory := image }
  | .pushByte value => m.orElse (m.pushByte value)
  | .popByte => m.orElse (m.popByte.map Prod.snd)
  | .pushWord value => (m.pushWord value).machine
  | .popWord => m.popWord.machine

namespace Process

variable {α : Type}

/-- A process comes to an end, with the machine as given. -/
def EndsIn (p : Process α) (m n : Machine) : Prop :=
  ∃ answer, p.exec m.toWords = some (answer, n.toWords)

theorem Commits.endsIn {p : Process α} {m : Machine} {r : Except Fault (α × Machine)} (h : p.Commits m r) :
    p.EndsIn m (m.orElse (r.map Prod.snd)) := by
  cases r with
  | ok out => exact ⟨_, h⟩
  | error f => exact ⟨_, h⟩

theorem Commits.endsIn_machine {p : Process Unit} {m : Machine} {r : Except Fault Machine}
    (h : p.Commits m (r.map fun n => ((), n))) : p.EndsIn m (m.orElse r) := by
  cases r with
  | ok n => exact ⟨_, h⟩
  | error f => exact ⟨_, h⟩

theorem EndsIn.discard {p : Process α} {m n : Machine} (h : p.EndsIn m n) :
    (do let _ ← p : Process Unit).EndsIn m n := by
  obtain ⟨answer, run⟩ := h
  cases answer with
  | ok a => exact ⟨_, exec_bind_ok run _⟩
  | error f => exact ⟨_, exec_bind_error run _⟩

end Process

/-- An operation in place ends, and leaves the machine as the typed operation has it. -/
theorem Operation.endsIn (m : Machine) (op : Operation) : op.process.EndsIn m (op.apply m) := by
  cases op with
  | step => exact (Process.commits_step m).endsIn.discard
  | next => exact Process.EndsIn.discard ⟨_, Process.exec_next m⟩
  | setPair pair value => exact (Process.commits_setPair m pair value).endsIn_machine
  | write address value => exact (Process.commits_write m address value).endsIn_machine
  | store loc value => exact (Process.commits_store m loc value).endsIn_machine
  | pushByte value => exact (Process.commits_pushByte m value).endsIn_machine
  | popByte => exact (Process.commits_popByte m).endsIn.discard
  | pushWord value => exact ⟨_, Process.exec_pushWord m value⟩
  | popWord => exact Process.EndsIn.discard ⟨_, Process.exec_popWord m⟩
  | reset | load | setRegister | setFlags | setPc | setHalted | overwrite => exact ⟨_, rfl⟩

/-- The machine after operations one after the other, if each of them comes to an end. -/
def WordMachine.after : WordMachine → List Operation → Option WordMachine
  | w, [] => some w
  | w, op :: ops => (op.process.exec w).bind fun out => WordMachine.after out.2 ops

theorem WordMachine.after_toWords (m : Machine) (ops : List Operation) :
    m.toWords.after ops = some (ops.foldl Operation.apply m).toWords := by
  induction ops generalizing m with
  | nil => rfl
  | cons op ops ih =>
    obtain ⟨answer, run⟩ := op.endsIn m
    rw [WordMachine.after, run]
    exact ih (op.apply m)

/-- The counters are in the window: the program counter at one of its cells, the stack pointer at one of them
or just past the last. -/
structure WordMachine.InWindow (w : WordMachine) : Prop where
  pc : w.pc.toNat < windowSize
  sp : w.sp.toNat ≤ windowSize

theorem Machine.inWindow (m : Machine) : m.toWords.InWindow where
  pc := by
    rw [m.toNat_pc_toWords]
    exact m.pc.isLt
  sp := by
    rw [m.toNat_sp_toWords]
    exact Nat.le_of_lt_succ m.sp.isLt

theorem WordMachine.InWindow.exists_toWords {w : WordMachine} (h : w.InWindow) : ∃ m : Machine, m.toWords = w := by
  refine ⟨⟨w.registers, w.flags, w.memory, ⟨w.pc.toNat, h.pc⟩, ⟨w.sp.toNat, Nat.lt_succ_of_le h.sp⟩, w.halted⟩, ?_⟩
  simp only [Machine.toWords, UInt16.ofNat_toNat]

/-- Whatever is done with the machine or read off it stays within the bounds of memory and of a word. -/
structure WordMachine.Bounded (w : WordMachine) : Prop where
  operation : ∀ op : Operation, op.process.exec w ≠ none
  byteAt : ∀ offset, (Process.byteAt offset).exec w ≠ none
  read : ∀ address, (Process.read address).exec w ≠ none
  load : ∀ loc, (Process.load loc).exec w ≠ none
  stack : Process.stack.exec w ≠ none
  fetch : Process.fetch.exec w ≠ none
  execute : ∀ i, (Process.execute i).exec w ≠ none

theorem Process.EndsIn.ne_none {α : Type} {p : Process α} {m n : Machine} (h : p.EndsIn m n) :
    p.exec m.toWords ≠ none := by
  obtain ⟨answer, run⟩ := h
  rw [run]
  exact Option.some_ne_none _

theorem Process.Does.ne_none {p : Process Unit} {m : Machine} {r : Except Fault Machine} (h : p.Does m r) :
    p.exec m.toWords ≠ none := by
  cases r with
  | ok n =>
    have run : p.exec m.toWords = some (.ok (), n.toWords) := h
    rw [run]
    exact Option.some_ne_none _
  | error f =>
    obtain ⟨w, run⟩ := h
    rw [run]
    exact Option.some_ne_none _

theorem Process.exec_stack (m : Machine) : Process.stack.exec m.toWords = some (.ok m.stack, m.toWords) := by
  have sp := m.inWindow.sp
  refine (exec_bind_ok (exec_get _) _).trans ?_
  simp only [sp, if_true]
  rw [m.toNat_sp_toWords]
  rfl

theorem WordMachine.InWindow.bounded {w : WordMachine} (h : w.InWindow) : w.Bounded := by
  obtain ⟨m, rfl⟩ := h.exists_toWords
  constructor
  case operation => exact fun op => (op.endsIn m).ne_none
  case byteAt =>
    intro offset
    have run := Process.exec_byteAt m offset.toNat_lt
    rw [UInt16.ofNat_toNat] at run
    rw [run]
    exact Option.some_ne_none _
  case read => exact fun address => (Process.commits_read m address).endsIn.ne_none
  case load => exact fun loc => (Process.commits_load m loc).endsIn.ne_none
  case stack =>
    rw [Process.exec_stack]
    exact Option.some_ne_none _
  case fetch => exact (Process.commits_fetch m).endsIn.ne_none
  case execute => exact fun i => (Process.does_execute m i).ne_none

theorem WordMachine.InWindow.sp_address {w : WordMachine} (h : w.InWindow) :
    0x0800 ≤ (windowBase + w.sp).toNat ∧ (windowBase + w.sp).toNat ≤ 0x0BB0 := by
  have sp := h.sp
  have size : windowSize = 944 := rfl
  have base : windowBase.toNat = 0x0800 := rfl
  rw [UInt16.toNat_add, base]
  omega

/-- Operations in any order, with any arguments and however they come out, keep the counters of a machine in
the window, and so nothing that is done to it goes out of bounds. -/
theorem WordMachine.after_inWindow (image : Image) (ops : List Operation) :
    ∃ w, WordMachine.after { memory := image } ops = some w ∧
      w = (ops.foldl Operation.apply (Machine.ofImage image)).toWords ∧
      w.InWindow ∧
      (∃ address, (Process.pair .sp).exec w = some (.ok address, w) ∧
        0x0800 ≤ address.toNat ∧ address.toNat ≤ 0x0BB0) ∧
      w.Bounded := by
  have start : (Machine.ofImage image).toWords = { memory := image } := rfl
  have run := WordMachine.after_toWords (Machine.ofImage image) ops
  have inside := (ops.foldl Operation.apply (Machine.ofImage image)).inWindow
  rw [start] at run
  exact ⟨_, run, rfl, inside, ⟨_, rfl, inside.sp_address⟩, inside.bounded⟩

end I8080
