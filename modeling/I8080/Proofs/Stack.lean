import I8080.Machine.Stack

namespace I8080

theorem Machine.push_of_room {m : Machine} {n : Nat} (sp : m.sp.val = n + 2) (value : UInt16) :
    m.push value = .ok { m with
      memory := (m.memory.set (n + 1) (Word.high value) (by omega)).set n (Word.low value) (by omega)
      sp := ⟨n, by omega⟩ } := by
  simp [Machine.push, Machine.pushWord, Machine.pushByte, Attempt.commit, Except.map, sp]

theorem Machine.push_of_full {m : Machine} (full : m.sp.val < 2) (value : UInt16) :
    m.push value = .error (m.outside 0x07FF) := by
  have below : windowBase - 1 = 0x07FF := by decide
  by_cases empty : 0 < m.sp.val
  · have one : m.sp.val = 1 := by omega
    simp [Machine.push, Machine.pushWord, Machine.pushByte, Attempt.commit, Except.map, Machine.outside, one, below]
  · have zero : m.sp.val = 0 := by omega
    simp [Machine.push, Machine.pushWord, Machine.pushByte, Attempt.commit, Except.map, zero, below]

theorem Machine.pop_of_word {m : Machine} (word : m.sp.val + 2 ≤ windowSize) :
    m.pop = .ok (Word.join m.memory[m.sp.val] m.memory[m.sp.val + 1],
      { m with sp := ⟨m.sp.val + 2, by omega⟩ }) := by
  have first : m.sp.val < windowSize := by omega
  have second : m.sp.val + 1 < windowSize := by omega
  simp [Machine.pop, Machine.popWord, Machine.popByte, Attempt.commit, Except.map, first, second]

theorem Machine.pop_of_short {m : Machine} (short : windowSize < m.sp.val + 2) :
    m.pop = .error (m.outside 0x0BB0) := by
  have past : addressOf windowSize = 0x0BB0 := by decide
  have bound := m.sp.isLt
  by_cases one : m.sp.val < windowSize
  · have last : m.sp.val + 1 = windowSize := by omega
    simp [Machine.pop, Machine.popWord, Machine.popByte, Attempt.commit, Except.map, Machine.outside, one, last, past]
  · have none : m.sp.val = windowSize := by omega
    simp [Machine.pop, Machine.popWord, Machine.popByte, Attempt.commit, Except.map, none, past]

end I8080
