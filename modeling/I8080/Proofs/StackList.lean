import I8080.Proofs.Operation

namespace I8080

/-- A list of bytes that is pushed and popped at its head and never outgrows the window. It also keeps the cells that have
been pushed into, where the last byte of the list stands in the last cell. -/
structure ByteStack where
  bytes : List UInt8
  filled : List Nat

/-- Work on a list of bytes. Where it fails, with an address, what it has done before stays done. -/
abbrev ByteStack.Work (α : Type) : Type :=
  ExceptT UInt16 (StateM ByteStack) α

namespace ByteStack

def Work.exec {α : Type} (work : Work α) (s : ByteStack) : Except UInt16 α × ByteStack :=
  StateT.run (ExceptT.run work) s

def push (value : UInt8) : Work Unit := do
  let s ← get
  if s.bytes.length < windowSize then
    set { s with
      bytes := value :: s.bytes
      filled := (windowSize - (s.bytes.length + 1)) :: s.filled }
  else throw 0x07FF

def pop : Work UInt8 := do
  let s ← get
  match s.bytes with
  | [] => throw 0x0BB0
  | value :: bytes =>
    set { s with bytes }
    return value

def pushWord (value : UInt16) : Work Unit := do
  push (Word.high value)
  push (Word.low value)

def popWord : Work UInt16 := do
  let low ← pop
  let high ← pop
  return Word.join low high

end ByteStack

/-- What is asked of a stack. -/
inductive StackCall where
  | pushByte (value : UInt8)
  | popByte
  | pushWord (value : UInt16)
  | popWord

inductive StackAnswer where
  | done
  | byte (value : UInt8)
  | word (value : UInt16)
  deriving DecidableEq

def StackCall.operation : StackCall → Operation
  | .pushByte value => .pushByte value
  | .popByte => .popByte
  | .pushWord value => .pushWord value
  | .popWord => .popWord

def StackCall.work : StackCall → ByteStack.Work StackAnswer
  | .pushByte value => do
    ByteStack.push value
    return .done
  | .popByte => do return .byte (← ByteStack.pop)
  | .pushWord value => do
    ByteStack.pushWord value
    return .done
  | .popWord => do return .word (← ByteStack.popWord)

/-- An attempt, and if it comes off another on the machine that it leaves. -/
def Attempt.andThen {α β : Type} (first : Attempt α) (next : α → Machine → Attempt β) : Attempt β :=
  match first.result with
  | .ok a => next a first.machine
  | .error fault => ⟨first.machine, .error fault⟩

def Machine.attemptPush (m : Machine) (value : UInt8) : Attempt Unit :=
  ⟨m.orElse (m.pushByte value), (m.pushByte value).map fun _ => ()⟩

def Machine.attemptPop (m : Machine) : Attempt UInt8 :=
  ⟨m.orElse (m.popByte.map Prod.snd), m.popByte.map Prod.fst⟩

def StackCall.attempt (m : Machine) : StackCall → Attempt StackAnswer
  | .pushByte value => (m.attemptPush value).andThen fun _ n => ⟨n, .ok .done⟩
  | .popByte => m.attemptPop.andThen fun value n => ⟨n, .ok (.byte value)⟩
  | .pushWord value => (m.pushWord value).andThen fun _ n => ⟨n, .ok .done⟩
  | .popWord => m.popWord.andThen fun value n => ⟨n, .ok (.word value)⟩

/-- The answers to calls one after the other, and the list after them. -/
def ByteStack.serve (s : ByteStack) : List StackCall → List (Except UInt16 StackAnswer) × ByteStack
  | [] => ([], s)
  | call :: calls =>
    let first := call.work.exec s
    let later := first.2.serve calls
    (first.1 :: later.1, later.2)

/-- The answers to calls one after the other, and the machine after them. -/
def Machine.serve (m : Machine) : List StackCall → List (Except Fault StackAnswer) × Machine
  | [] => ([], m)
  | call :: calls =>
    let first := call.attempt m
    let later := first.machine.serve calls
    (first.result :: later.1, later.2)

theorem Machine.pushByte_of_room {m : Machine} {k : Nat} (room : m.sp.val = k + 1) (value : UInt8) :
    m.pushByte value = .ok { m with
      memory := m.memory.set k value (by omega)
      sp := ⟨k, by omega⟩ } := by
  simp [Machine.pushByte, room]

theorem Machine.pushByte_of_full {m : Machine} (full : m.sp.val = 0) (value : UInt8) :
    m.pushByte value = .error (m.outside 0x07FF) := by
  have below : windowBase - 1 = 0x07FF := by decide
  simp [Machine.pushByte, full, below]

theorem Machine.popByte_of_byte {m : Machine} (byte : m.sp.val < windowSize) :
    m.popByte = .ok (m.memory[m.sp.val], { m with sp := ⟨m.sp.val + 1, Nat.succ_lt_succ byte⟩ }) := by
  simp [Machine.popByte, byte]

theorem Machine.popByte_of_empty {m : Machine} (empty : m.sp.val = windowSize) :
    m.popByte = .error (m.outside 0x0BB0) := by
  have past : addressOf windowSize = 0x0BB0 := by decide
  simp [Machine.popByte, empty, past]

theorem Machine.pushWord_eq (m : Machine) (value : UInt16) :
    m.pushWord value = (m.attemptPush (Word.high value)).andThen fun _ half => half.attemptPush (Word.low value) := by
  unfold Machine.pushWord Machine.attemptPush
  cases m.pushByte (Word.high value) with
  | error fault => rfl
  | ok half =>
    dsimp only [Attempt.andThen, Except.map, Machine.orElse]
    cases half.pushByte (Word.low value) <;> rfl

theorem Machine.popWord_eq (m : Machine) :
    m.popWord = m.attemptPop.andThen fun low half =>
      half.attemptPop.andThen fun high whole => ⟨whole, .ok (Word.join low high)⟩ := by
  unfold Machine.popWord Machine.attemptPop
  cases m.popByte with
  | error fault => rfl
  | ok out =>
    obtain ⟨low, half⟩ := out
    dsimp only [Attempt.andThen, Except.map, Machine.orElse]
    cases half.popByte <;> rfl

/-- A machine that comes from another by work on its stack alone, when the stack is the list. -/
structure Machine.Holds (m : Machine) (s : ByteStack) (n : Machine) : Prop where
  stack : n.stack = s.bytes
  rest : n = { m with memory := n.memory, sp := n.sp }
  cells : ∀ offset, offset ∉ s.filled → n.memory[offset]? = m.memory[offset]?

theorem Machine.length_stack (m : Machine) : m.stack.length + m.sp.val = windowSize := by
  have bound := m.sp.isLt
  rw [Machine.stack, List.length_drop, Vector.length_toList]
  omega

theorem drop_set_self {α : Type} {as : List α} {k : Nat} (inside : k < as.length) (a : α) :
    (as.set k a).drop k = a :: as.drop (k + 1) := by
  have same : k < (as.set k a).length := by rwa [List.length_set]
  rw [List.drop_eq_getElem_cons same, List.getElem_set_self, List.drop_set_of_lt (Nat.lt_succ_self k)]

namespace Machine.Holds

variable {m n : Machine} {s : ByteStack}

theorem start (m : Machine) : m.Holds ⟨m.stack, []⟩ m :=
  ⟨rfl, rfl, fun _ _ => rfl⟩

theorem sp (h : m.Holds s n) : s.bytes.length + n.sp.val = windowSize :=
  h.stack ▸ n.length_stack

theorem outside (h : m.Holds s n) (address : UInt16) : n.outside address = m.outside address := by
  rw [h.rest]
  rfl

theorem restacked (h : m.Holds s n) (memory : Image) (sp : Fin (windowSize + 1)) :
    { n with memory, sp } = { m with memory, sp } :=
  congrArg (fun k : Machine => { k with memory, sp }) h.rest

theorem push (h : m.Holds s n) {k : Nat} (room : n.sp.val = k + 1) (inside : k < windowSize) (value : UInt8) :
    m.Holds ⟨value :: s.bytes, k :: s.filled⟩
      { n with memory := n.memory.set k value inside, sp := ⟨k, Nat.lt_succ_of_lt inside⟩ } where
  stack := by
    have bytes : n.memory.toList.drop (k + 1) = s.bytes := by rw [← room, ← h.stack, Machine.stack]
    change (n.memory.set k value inside).toList.drop k = value :: s.bytes
    rw [Vector.toList_set, drop_set_self (by rwa [Vector.length_toList]), bytes]
  rest := h.restacked _ _
  cells := by
    intro offset free
    rw [List.mem_cons, not_or] at free
    rw [← h.cells offset free.2]
    exact Vector.getElem?_set_ne inside (Ne.symm free.1)

theorem pop (h : m.Holds s n) (inside : n.sp.val < windowSize) :
    s.bytes = n.memory[n.sp.val] :: s.bytes.tail ∧
      m.Holds { s with bytes := s.bytes.tail } { n with sp := ⟨n.sp.val + 1, Nat.succ_lt_succ inside⟩ } := by
  have split : s.bytes = n.memory[n.sp.val] :: n.memory.toList.drop (n.sp.val + 1) := by
    rw [← h.stack, Machine.stack, List.drop_eq_getElem_cons (by rwa [Vector.length_toList]), Vector.getElem_toList]
  have tail : n.memory.toList.drop (n.sp.val + 1) = s.bytes.tail := by rw [split, List.tail_cons]
  exact ⟨tail ▸ split, tail, h.restacked _ _, h.cells⟩

end Machine.Holds

namespace ByteStack

variable {α β : Type}

theorem exec_bind (work : Work α) (next : α → Work β) (s : ByteStack) :
    (work >>= next).exec s = match work.exec s with
      | (.ok a, t) => (next a).exec t
      | (.error address, t) => (.error address, t) := by
  change StateT.run (ExceptT.bind work next) s = _
  unfold ExceptT.bind ExceptT.mk
  rw [StateT.run_bind]
  change (ExceptT.bindCont next (work.exec s).1).run (work.exec s).2 = _
  rcases work.exec s with ⟨_ | _, t⟩ <;> rfl

theorem exec_push_of_room {s : ByteStack} (room : s.bytes.length < windowSize) (value : UInt8) :
    (push value).exec s = (.ok (), ⟨value :: s.bytes, (windowSize - (s.bytes.length + 1)) :: s.filled⟩) := by
  have get : (MonadState.get : Work ByteStack).exec s = (.ok s, s) := rfl
  rw [push, exec_bind, get]
  dsimp only
  rw [if_pos room]
  rfl

theorem exec_push_of_full {s : ByteStack} (full : s.bytes.length = windowSize) (value : UInt8) :
    (push value).exec s = (.error 0x07FF, s) := by
  have get : (MonadState.get : Work ByteStack).exec s = (.ok s, s) := rfl
  rw [push, exec_bind, get]
  dsimp only
  rw [if_neg (Nat.not_lt_of_ge (Nat.le_of_eq full.symm))]
  rfl

theorem exec_pop_cons (value : UInt8) (bytes : List UInt8) (filled : List Nat) :
    pop.exec ⟨value :: bytes, filled⟩ = (.ok value, ⟨bytes, filled⟩) :=
  rfl

theorem exec_pop_nil (filled : List Nat) : pop.exec ⟨[], filled⟩ = (.error 0x0BB0, ⟨[], filled⟩) :=
  rfl

end ByteStack

/-- An attempt on a machine comes out as the work on the list that its stack is, and they fail at the same address. -/
structure Machine.Serves {α : Type} (m : Machine) (outcome : Except UInt16 α × ByteStack) (attempt : Attempt α) : Prop where
  holds : m.Holds outcome.2 attempt.machine
  result : attempt.result = outcome.1.mapError m.outside

namespace Machine.Serves

variable {α β : Type} {m n : Machine} {s : ByteStack}

theorem gives (h : m.Holds s n) (a : α) : m.Serves ((pure a : ByteStack.Work α).exec s) ⟨n, .ok a⟩ :=
  ⟨h, rfl⟩

theorem andThen {work : ByteStack.Work α} {attempt : Attempt α} (h : m.Serves (work.exec s) attempt)
    {next : α → ByteStack.Work β} {later : α → Machine → Attempt β}
    (rest : ∀ a t k, m.Holds t k → m.Serves ((next a).exec t) (later a k)) :
    m.Serves ((work >>= next).exec s) (attempt.andThen later) := by
  obtain ⟨holds, result⟩ := h
  rw [ByteStack.exec_bind, Attempt.andThen, result]
  generalize work.exec s = outcome at holds
  obtain ⟨_ | a, t⟩ := outcome
  · exact ⟨holds, rfl⟩
  · exact rest a t _ holds

theorem pushByte (h : m.Holds s n) (value : UInt8) :
    m.Serves ((ByteStack.push value).exec s) (n.attemptPush value) := by
  have sum := h.sp
  cases hk : n.sp.val with
  | zero =>
    rw [ByteStack.exec_push_of_full (by omega), Machine.attemptPush, Machine.pushByte_of_full hk, h.outside]
    exact ⟨h, rfl⟩
  | succ k =>
    have inside : k < windowSize := by omega
    have cell : windowSize - (s.bytes.length + 1) = k := by omega
    rw [ByteStack.exec_push_of_room (by omega), Machine.attemptPush, Machine.pushByte_of_room hk, cell]
    exact ⟨h.push hk inside value, rfl⟩

theorem popByte (h : m.Holds s n) : m.Serves (ByteStack.pop.exec s) n.attemptPop := by
  have sum := h.sp
  by_cases inside : n.sp.val < windowSize
  · obtain ⟨split, popped⟩ := h.pop inside
    rw [show s = ⟨n.memory[n.sp.val] :: s.bytes.tail, s.filled⟩ by rw [← split], ByteStack.exec_pop_cons,
      Machine.attemptPop, Machine.popByte_of_byte inside]
    exact ⟨popped, rfl⟩
  · obtain ⟨bytes, filled⟩ := s
    have empty : bytes = [] := List.length_eq_zero_iff.mp (by dsimp only at sum; omega)
    subst empty
    rw [ByteStack.exec_pop_nil, Machine.attemptPop, Machine.popByte_of_empty (by dsimp only at sum; omega), h.outside]
    exact ⟨h, rfl⟩

theorem pushWord (h : m.Holds s n) (value : UInt16) :
    m.Serves ((ByteStack.pushWord value).exec s) (n.pushWord value) := by
  rw [Machine.pushWord_eq]
  exact (pushByte h _).andThen fun _ _ _ half => pushByte half _

theorem popWord (h : m.Holds s n) : m.Serves (ByteStack.popWord.exec s) n.popWord := by
  rw [Machine.popWord_eq]
  exact (popByte h).andThen fun _ _ _ half => (popByte half).andThen fun _ _ _ whole => gives whole _

theorem call (h : m.Holds s n) (call : StackCall) : m.Serves (call.work.exec s) (call.attempt n) := by
  cases call with
  | pushByte value => exact (pushByte h value).andThen fun _ _ _ holds => gives holds StackAnswer.done
  | popByte => exact (popByte h).andThen fun value _ _ holds => gives holds (StackAnswer.byte value)
  | pushWord value => exact (pushWord h value).andThen fun _ _ _ holds => gives holds StackAnswer.done
  | popWord => exact (popWord h).andThen fun value _ _ holds => gives holds (StackAnswer.word value)

end Machine.Serves

theorem Machine.Holds.serve {m n : Machine} {s : ByteStack} (h : m.Holds s n) (calls : List StackCall) :
    m.Holds (s.serve calls).2 (n.serve calls).2 ∧
      (n.serve calls).1 = (s.serve calls).1.map (Except.mapError m.outside) := by
  induction calls generalizing s n with
  | nil => exact ⟨h, rfl⟩
  | cons call calls ih =>
    have first := Machine.Serves.call h call
    obtain ⟨last, later⟩ := ih first.holds
    refine ⟨last, ?_⟩
    rw [Machine.serve, ByteStack.serve, List.map_cons, ← first.result, ← later]

namespace ByteStack

theorem serve_append (s : ByteStack) (calls others : List StackCall) :
    s.serve (calls ++ others) =
      ((s.serve calls).1 ++ ((s.serve calls).2.serve others).1, ((s.serve calls).2.serve others).2) := by
  induction calls generalizing s with
  | nil => rfl
  | cons call calls ih => simp only [List.cons_append, serve, ih]

theorem exec_pushWord {s : ByteStack} (room : s.bytes.length + 2 ≤ windowSize) (value : UInt16) :
    ∃ filled, (pushWord value).exec s = (.ok (), ⟨Word.low value :: Word.high value :: s.bytes, filled⟩) := by
  have half : (Word.high value :: s.bytes).length < windowSize := room
  rw [pushWord, exec_bind, exec_push_of_room (Nat.lt_of_succ_lt half)]
  exact ⟨_, exec_push_of_room half _⟩

/-- Words come back in the order opposite to that in which they were pushed. -/
theorem serve_words {s : ByteStack} {words : List UInt16} (room : s.bytes.length + 2 * words.length ≤ windowSize) :
    let served := s.serve (words.map .pushWord ++ List.replicate words.length .popWord)
    served.1 = words.map (fun _ => .ok .done) ++ words.reverse.map (fun value => .ok (.word value)) ∧
      served.2.bytes = s.bytes := by
  induction words generalizing s with
  | nil => exact ⟨rfl, rfl⟩
  | cons value words ih =>
    rw [List.length_cons] at room
    obtain ⟨filled, pushed⟩ := exec_pushWord (show s.bytes.length + 2 ≤ windowSize by omega) value
    have push : (StackCall.pushWord value).work.exec s =
        (.ok .done, ⟨Word.low value :: Word.high value :: s.bytes, filled⟩) := by
      rw [StackCall.work, exec_bind, pushed]
      rfl
    -- The word pushed first is popped last, when all the others are gone.
    obtain ⟨answers, bytes⟩ := @ih ⟨Word.low value :: Word.high value :: s.bytes, filled⟩ (by
      simp only [List.length_cons]
      omega)
    have pop (t : ByteStack) (top : t.bytes = Word.low value :: Word.high value :: s.bytes) :
        StackCall.popWord.work.exec t = (.ok (.word value), ⟨s.bytes, t.filled⟩) := by
      obtain ⟨_, filled⟩ := t
      cases top
      change (Except.ok (StackAnswer.word (Word.join (Word.low value) (Word.high value))), _) = _
      rw [Word.join_low_high]
    rw [List.length_cons, List.replicate_succ', List.map_cons, List.cons_append, ← List.append_assoc, serve, push,
      serve_append, serve, pop _ bytes]
    dsimp only
    rw [answers, List.map_cons, List.reverse_cons, List.map_append]
    exact ⟨by simp [serve], rfl⟩

end ByteStack

theorem Attempt.machine_answer {α β : Type} (attempt : Attempt α) (f : α → β) :
    (attempt.andThen fun a n => ⟨n, .ok (f a)⟩).machine = attempt.machine := by
  unfold Attempt.andThen
  cases attempt.result <;> rfl

theorem StackCall.machine_attempt (m : Machine) (call : StackCall) :
    (call.attempt m).machine = call.operation.apply m := by
  cases call <;> exact Attempt.machine_answer _ _

theorem Machine.after_serve (m : Machine) (calls : List StackCall) :
    m.toWords.after (calls.map StackCall.operation) = some (m.serve calls).2.toWords := by
  rw [WordMachine.after_toWords]
  induction calls generalizing m with
  | nil => rfl
  | cons call calls ih =>
    rw [List.map_cons, List.foldl_cons, ← StackCall.machine_attempt]
    exact ih _

/-- The stack of a machine is a list of at most as many bytes as the window has. Calls on it are answered as by the list,
and change nothing but the stack pointer and the cells pushed into. Words come off it in the opposite order. -/
theorem Machine.serve_refines_byteStack (m : Machine) :
    (∀ calls : List StackCall,
      let served := m.serve calls
      let list := ByteStack.serve ⟨m.stack, []⟩ calls
      served.1 = list.1.map (Except.mapError fun address => .addressOutOfRange address m.pc) ∧
        served.2.stack = list.2.bytes ∧ list.2.bytes.length ≤ windowSize ∧
        served.2 = { m with memory := served.2.memory, sp := served.2.sp } ∧
        (∀ offset, offset ∉ list.2.filled → served.2.memory[offset]? = m.memory[offset]?) ∧
        m.toWords.after (calls.map StackCall.operation) = some served.2.toWords) ∧
      ∀ words : List UInt16, 2 * words.length ≤ m.sp.val →
        let served := m.serve (words.map .pushWord ++ List.replicate words.length .popWord)
        served.1 = words.map (fun _ => .ok .done) ++ words.reverse.map (fun value => .ok (.word value)) ∧
          served.2.sp = m.sp ∧ served.2.stack = m.stack := by
  constructor
  · intro calls served list
    obtain ⟨holds, answers⟩ := (Machine.Holds.start m).serve calls
    exact ⟨answers, holds.stack, Nat.le.intro holds.sp, holds.rest, holds.cells, m.after_serve calls⟩
  · intro words fit served
    have sum := m.length_stack
    obtain ⟨holds, answers⟩ :=
      (Machine.Holds.start m).serve (words.map .pushWord ++ List.replicate words.length .popWord)
    obtain ⟨model, bytes⟩ := @ByteStack.serve_words ⟨m.stack, []⟩ words (by dsimp only; omega)
    have last := holds.sp
    rw [bytes] at last
    refine ⟨?_, Fin.ext (Nat.add_left_cancel (last.trans sum.symm)), holds.stack.trans bytes⟩
    have answers : served.1 = _ := answers
    rw [answers, model, List.map_append, List.map_map, List.map_map]
    rfl

/-- Two words fill the last four cells that are free, and come off again. -/
theorem Machine.serve_refines_byteStack_full :
    let m : Machine := { sp := ⟨4, by decide⟩ }
    2 * [0x1234, 0xABCD].length ≤ m.sp.val ∧
      (m.serve [.pushWord 0x1234, .pushWord 0xABCD, .popWord, .popWord]).1 =
        [.ok .done, .ok .done, .ok (.word 0xABCD), .ok (.word 0x1234)] ∧
      (m.serve [.pushWord 0x1234, .pushWord 0xABCD, .popWord, .popWord]).2.sp.val = 4 := by
  intro m
  have fit : 2 * [(0x1234 : UInt16), 0xABCD].length ≤ m.sp.val := by decide
  obtain ⟨answers, sp, -⟩ := m.serve_refines_byteStack.2 [0x1234, 0xABCD] fit
  exact ⟨by decide, answers, congrArg Fin.val sp⟩

example : (({ sp := ⟨1, by decide⟩ } : Machine).serve [.pushWord 0x1234, .popByte]).1 =
    [.error (.addressOutOfRange 0x07FF ⟨0, by decide⟩), .ok (.byte 0x12)] := by rfl

end I8080
