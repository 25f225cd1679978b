import I8080.Machine

namespace I8080

/-- The bytes on the stack, the last pushed first. -/
def Machine.stack (m : Machine) : List UInt8 :=
  m.memory.toList.drop m.sp

/-- Pushes a byte. A full stack refuses it, with the address below the window. -/
def Machine.pushByte (m : Machine) (value : UInt8) : Except Fault Machine :=
  if h : 0 < m.sp.val then
    let sp := m.sp.val - 1
    .ok { m with memory := m.memory.set sp value (by omega), sp := ⟨sp, by omega⟩ }
  else .error (m.outside (windowBase - 1))

/-- Pops a byte. An empty stack has none, and its pointer is the address to blame. -/
def Machine.popByte (m : Machine) : Except Fault (UInt8 × Machine) :=
  if h : m.sp.val < windowSize then
    .ok (m.memory[m.sp.val], { m with sp := ⟨m.sp.val + 1, by omega⟩ })
  else .error (m.outside (addressOf m.sp))

/-- An operation in parts that stops at the first part that fails and leaves the parts before it done. -/
structure Attempt (α : Type) where
  machine : Machine
  result : Except Fault α

/-- Pushes a word, its high byte first, so that it stands in memory order. -/
def Machine.pushWord (m : Machine) (value : UInt16) : Attempt Unit :=
  match m.pushByte (Word.high value) with
  | .error fault => ⟨m, .error fault⟩
  | .ok half =>
    match half.pushByte (Word.low value) with
    | .error fault => ⟨half, .error fault⟩
    | .ok whole => ⟨whole, .ok ()⟩

/-- Pops a word, its low byte first. -/
def Machine.popWord (m : Machine) : Attempt UInt16 :=
  match m.popByte with
  | .error fault => ⟨m, .error fault⟩
  | .ok (low, half) =>
    match half.popByte with
    | .error fault => ⟨half, .error fault⟩
    | .ok (high, whole) => ⟨whole, .ok (Word.join low high)⟩

/-- The whole of an operation, or nothing of it. -/
def Attempt.commit {α : Type} (attempt : Attempt α) : Except Fault (α × Machine) :=
  attempt.result.map fun value => (value, attempt.machine)

/-- Pushes a word, all of it or nothing. -/
def Machine.push (m : Machine) (value : UInt16) : Except Fault Machine :=
  (m.pushWord value).commit.map Prod.snd

/-- Pops a word, all of it or nothing. -/
def Machine.pop (m : Machine) : Except Fault (UInt16 × Machine) :=
  m.popWord.commit

end I8080
