import I8080.Proofs.Demand
import I8080.Proofs.WordMachine

namespace I8080

def Fault.toWords : Fault → WordFault
  | .unknownOpcode opcode pc => .unknownOpcode opcode (UInt16.ofNat pc.val)
  | .addressOutOfRange address pc => .addressOutOfRange address (UInt16.ofNat pc.val)

/-- A machine with its counters written as words. -/
def Machine.toWords (m : Machine) : WordMachine where
  registers := m.registers
  flags := m.flags
  memory := m.memory
  pc := UInt16.ofNat m.pc.val
  sp := UInt16.ofNat m.sp.val
  halted := m.halted

/-- Every offset of the window, and the one past its end, is a word. -/
theorem toNat_ofNat_of_le_windowSize {n : Nat} (h : n ≤ windowSize) : (UInt16.ofNat n).toNat = n :=
  UInt16.toNat_ofNat_of_lt' (Nat.lt_of_le_of_lt h (by decide))

theorem toNat_addressOf {offset : Nat} (inside : offset ≤ windowSize) :
    (addressOf offset).toNat = 0x0800 + offset := by
  have base : windowBase.toNat = 0x0800 := rfl
  have size : windowSize = 944 := rfl
  rw [addressOf, UInt16.toNat_add, base, toNat_ofNat_of_le_windowSize inside]
  omega

theorem toNat_ofNat_offset (offset : Offset) : (UInt16.ofNat offset.val).toNat = offset.val :=
  toNat_ofNat_of_le_windowSize (Nat.le_of_lt offset.isLt)

theorem Machine.toNat_pc_toWords (m : Machine) : m.toWords.pc.toNat = m.pc.val :=
  toNat_ofNat_offset m.pc

theorem Machine.toNat_sp_toWords (m : Machine) : m.toWords.sp.toNat = m.sp.val :=
  toNat_ofNat_of_le_windowSize (Nat.le_of_lt_succ m.sp.isLt)

namespace Process

variable {α β : Type}

theorem exec_get (w : WordMachine) : (get : Process WordMachine).exec w = some (.ok w, w) :=
  rfl

theorem exec_modify (f : WordMachine → WordMachine) (w : WordMachine) :
    (modify f : Process Unit).exec w = some (.ok (), f w) :=
  rfl

theorem exec_bind_ok {p : Process α} {w v : WordMachine} {a : α} (h : p.exec w = some (.ok a, v))
    (next : α → Process β) : (p >>= next).exec w = (next a).exec v := by
  change Option.bind (p.exec w) _ = _
  rw [h]
  rfl

theorem exec_bind_error {p : Process α} {w v : WordMachine} {f : WordFault}
    (h : p.exec w = some (.error f, v)) (next : α → Process β) :
    (p >>= next).exec w = some (.error f, v) := by
  change Option.bind (p.exec w) _ = _
  rw [h]
  rfl

/-- A process does in place what the typed operation does as a whole, or nothing. -/
def Commits (p : Process α) (m : Machine) : Except Fault (α × Machine) → Prop
  | .ok (a, n) => p.exec m.toWords = some (.ok a, n.toWords)
  | .error f => p.exec m.toWords = some (.error f.toWords, m.toWords)

/-- A process does in place what the typed operation does, and may leave part of it done when it faults. -/
def Follows (p : Process α) (m : Machine) : Except Fault (α × Machine) → Prop
  | .ok (a, n) => p.exec m.toWords = some (.ok a, n.toWords)
  | .error f => ∃ w, p.exec m.toWords = some (.error f.toWords, w)

theorem Commits.follows {p : Process α} {m : Machine} {r : Except Fault (α × Machine)} (h : p.Commits m r) :
    p.Follows m r := by
  cases r with
  | ok out => exact h
  | error f => exact ⟨m.toWords, h⟩

theorem Follows.bind {p : Process α} {m : Machine} {r : Except Fault (α × Machine)} (h : p.Follows m r)
    {next : α → Process β} {rest : α × Machine → Except Fault (β × Machine)}
    (later : ∀ a n, r = .ok (a, n) → (next a).Follows n (rest (a, n))) :
    (p >>= next).Follows m (r >>= rest) := by
  cases r with
  | error f =>
    obtain ⟨w, run⟩ := h
    exact ⟨w, exec_bind_error run next⟩
  | ok out =>
    obtain ⟨a, n⟩ := out
    have last := later a n rfl
    have run := exec_bind_ok h next
    change (p >>= next).Follows m (rest (a, n))
    revert last
    cases rest (a, n) with
    | error f =>
      rintro ⟨w, last⟩
      exact ⟨w, run.trans last⟩
    | ok out => exact fun last => run.trans last

/-- A process that first reads something off the machine. -/
theorem follows_bind {p : Process α} {m : Machine} {a : α} (h : p.exec m.toWords = some (.ok a, m.toWords))
    {next : α → Process β} {r : Except Fault (β × Machine)} (later : (next a).Follows m r) :
    (p >>= next).Follows m r := by
  have run := exec_bind_ok h next
  cases r with
  | error f =>
    obtain ⟨w, last⟩ := later
    exact ⟨w, run.trans last⟩
  | ok out => exact run.trans later

theorem exec_add {x y : UInt16} (fits : x.toNat + y.toNat < 65536) (w : WordMachine) :
    (add x y).exec w = some (.ok (x + y), w) := by
  rw [add, if_pos fits]
  rfl

theorem exec_byteIn {offset : Nat} (inside : offset < windowSize) (w : WordMachine) :
    (byteIn offset).exec w = some (.ok w.memory[offset], w) := by
  refine (exec_bind_ok (exec_get w) _).trans ?_
  simp only [dif_pos inside]
  rfl

theorem exec_setByteIn {offset : Nat} (inside : offset < windowSize) (value : UInt8) (w : WordMachine) :
    (setByteIn offset value).exec w =
      some (.ok (), { w with memory := w.memory.set offset value inside }) := by
  refine (exec_bind_ok (exec_get w) _).trans ?_
  simp only [dif_pos inside]
  rfl

theorem commits_offsetOf (m : Machine) (address : UInt16) :
    (offsetOf address).Commits m ((m.offsetOf address).map fun offset => (UInt16.ofNat offset.val, m)) := by
  by_cases inside : (address - windowBase).toNat < windowSize
  · have offset : m.offsetOf address = .ok ⟨_, inside⟩ := by
      simp [Machine.offsetOf, Offset.ofAddress?, inside]
    rw [offset, offsetOf, if_pos inside]
    change _ = some (Except.ok (UInt16.ofNat (address - windowBase).toNat), _)
    rw [UInt16.ofNat_toNat]
    rfl
  · have fault : m.offsetOf address = .error (m.outside address) := by
      simp [Machine.offsetOf, Offset.ofAddress?, inside]
    rw [fault, offsetOf, if_neg inside]
    rfl

/-- A process that turns an address into an offset of the window and then cannot fault. -/
theorem commits_at (m : Machine) (address : UInt16) {p : UInt16 → Process β} {f : Offset → β × Machine}
    (cell : ∀ offset : Offset, (p (UInt16.ofNat offset.val)).exec m.toWords =
      some (.ok (f offset).1, (f offset).2.toWords)) :
    (offsetOf address >>= p).Commits m ((m.offsetOf address).map f) := by
  have offset := commits_offsetOf m address
  cases ho : m.offsetOf address with
  | ok o =>
    rw [ho] at offset
    exact (exec_bind_ok offset p).trans (cell o)
  | error fault =>
    rw [ho] at offset
    exact exec_bind_error offset p

theorem commits_read (m : Machine) (address : UInt16) :
    (read address).Commits m ((m.read address).map fun value => (value, m)) := by
  have typed : ((m.read address).map fun value => (value, m)) =
      (m.offsetOf address).map fun offset => (m.memory[offset], m) := by
    unfold Machine.read
    cases m.offsetOf address <;> rfl
  rw [typed]
  refine commits_at m address fun offset => ?_
  have number := toNat_ofNat_offset offset
  rw [exec_byteIn (by rw [number]; exact offset.isLt)]
  simp only [number]
  rfl

theorem commits_write (m : Machine) (address : UInt16) (value : UInt8) :
    (write address value).Commits m ((m.write address value).map fun n => ((), n)) := by
  have typed : ((m.write address value).map fun n => ((), n)) =
      (m.offsetOf address).map fun offset =>
        ((), { m with memory := m.memory.set offset.val value offset.isLt }) := by
    unfold Machine.write
    cases m.offsetOf address <;> rfl
  rw [typed]
  refine commits_at m address fun offset => ?_
  have number := toNat_ofNat_offset offset
  rw [exec_setByteIn (by rw [number]; exact offset.isLt)]
  simp only [number]
  rfl

theorem exec_setPc (m : Machine) {n : Nat} (small : n < 65536) :
    (setPc (UInt16.ofNat n)).exec m.toWords = some (.ok (), (m.goto n).toWords) := by
  refine (exec_modify _ _).trans ?_
  rw [UInt16.toNat_ofNat_of_lt' small]
  rfl

theorem exec_pair (m : Machine) (p : RegPair) : (pair p).exec m.toWords = some (.ok (m.pair p), m.toWords) := by
  cases p <;> rfl

theorem commits_setPair (m : Machine) (p : RegPair) (value : UInt16) :
    (setPair p value).Commits m ((m.setPair p value).map fun n => ((), n)) := by
  cases p with
  | sp =>
    by_cases inside : (value - windowBase).toNat ≤ windowSize
    · have typed : m.setPair .sp value = .ok { m with sp := ⟨_, Nat.lt_succ_of_le inside⟩ } := by
        simp [Machine.setPair, inside]
      rw [typed, setPair, if_pos inside]
      change _ = some (Except.ok (), Machine.toWords _)
      simp only [Machine.toWords, UInt16.ofNat_toNat]
      rfl
    · have typed : m.setPair .sp value = .error (m.outside value) := by simp [Machine.setPair, inside]
      rw [typed, setPair, if_neg inside]
      rfl
  | _ => rfl

theorem Commits.of_exec {p q : Process α} {m : Machine} {r : Except Fault (α × Machine)} (h : q.Commits m r)
    (same : p.exec m.toWords = q.exec m.toWords) : p.Commits m r := by
  cases r with
  | ok out => exact same.trans h
  | error f => exact same.trans h

theorem commits_load (m : Machine) (loc : Loc) :
    (load loc).Commits m ((m.load loc).map fun value => (value, m)) := by
  cases loc with
  | reg r => rfl
  | mem =>
    exact (commits_read m (m.pair .hl)).of_exec (exec_bind_ok (exec_pair m .hl) read)

theorem commits_store (m : Machine) (loc : Loc) (value : UInt8) :
    (store loc value).Commits m ((m.store loc value).map fun n => ((), n)) := by
  cases loc with
  | reg r => rfl
  | mem => exact (commits_write m (m.pair .hl) value).of_exec (exec_bind_ok (exec_pair m .hl) _)

theorem commits_pushByte (m : Machine) (value : UInt8) :
    (pushByte value).Commits m ((m.pushByte value).map fun n => ((), n)) := by
  have sp := m.toNat_sp_toWords
  have bound := m.sp.isLt
  have size : windowSize = 944 := rfl
  by_cases room : 0 < m.sp.val
  · have typed : m.pushByte value = .ok { m with
        memory := m.memory.set (m.sp.val - 1) value (by omega), sp := ⟨m.sp.val - 1, by omega⟩ } := by
      simp [Machine.pushByte, room]
    have some : ¬m.toWords.sp = 0 := by
      intro zero
      rw [zero] at sp
      exact Nat.ne_of_gt room sp.symm
    have lower : m.toWords.sp - 1 = UInt16.ofNat (m.sp.val - 1) := (UInt16.ofNat_sub room).symm
    have number := toNat_ofNat_of_le_windowSize (n := m.sp.val - 1) (by omega)
    rw [typed]
    refine (exec_bind_ok (exec_get _) _).trans ?_
    simp only [if_neg some]
    refine (exec_bind_ok (exec_modify _ _) _).trans ?_
    simp only [lower, number]
    exact exec_setByteIn (by omega) value _
  · have typed : m.pushByte value = .error (m.outside (windowBase - 1)) := by simp [Machine.pushByte, room]
    have zero : m.toWords.sp = 0 := by
      apply UInt16.toNat_inj.mp
      rw [sp]
      exact Nat.eq_zero_of_not_pos room
    rw [typed]
    refine (exec_bind_ok (exec_get _) _).trans ?_
    simp only [if_pos zero]
    rfl

theorem commits_popByte (m : Machine) : popByte.Commits m m.popByte := by
  have sp := m.toNat_sp_toWords
  have bound := m.sp.isLt
  have size : windowSize = 944 := rfl
  by_cases byte : m.sp.val < windowSize
  · have typed : m.popByte = .ok (m.memory[m.sp.val], { m with sp := ⟨m.sp.val + 1, by omega⟩ }) := by
      simp [Machine.popByte, byte]
    have inside : m.toWords.sp.toNat < windowSize := by omega
    have fits : m.toWords.sp.toNat + (1 : UInt16).toNat < 65536 := by
      have one : (1 : UInt16).toNat = 1 := rfl
      omega
    have higher : m.toWords.sp + 1 = UInt16.ofNat (m.sp.val + 1) := (UInt16.ofNat_add m.sp.val 1).symm
    rw [typed]
    refine (exec_bind_ok (exec_get _) _).trans ?_
    simp only [dif_pos inside]
    refine (exec_bind_ok (exec_add fits _) _).trans ?_
    refine (exec_bind_ok (exec_modify _ _) _).trans ?_
    simp only [higher, sp]
    rfl
  · have typed : m.popByte = .error (m.outside (addressOf m.sp)) := by simp [Machine.popByte, byte]
    have past : ¬m.toWords.sp.toNat < windowSize := by omega
    rw [typed]
    refine (exec_bind_ok (exec_get _) _).trans ?_
    simp only [dif_neg past]
    rfl

theorem exec_pushWord (m : Machine) (value : UInt16) :
    (pushWord value).exec m.toWords =
      some ((m.pushWord value).result.mapError Fault.toWords, (m.pushWord value).machine.toWords) := by
  have first := commits_pushByte m (Word.high value)
  unfold Machine.pushWord
  cases hf : m.pushByte (Word.high value) with
  | error f =>
    rw [hf] at first
    exact exec_bind_error first _
  | ok half =>
    rw [hf] at first
    have second := commits_pushByte half (Word.low value)
    refine (exec_bind_ok first _).trans ?_
    cases hs : half.pushByte (Word.low value) with
    | error f =>
      rw [hs] at second
      simp only [hs]
      exact second
    | ok whole =>
      rw [hs] at second
      simp only [hs]
      exact second

theorem exec_popWord (m : Machine) :
    popWord.exec m.toWords =
      some (m.popWord.result.mapError Fault.toWords, m.popWord.machine.toWords) := by
  have first := commits_popByte m
  unfold Machine.popWord
  cases hf : m.popByte with
  | error f =>
    rw [hf] at first
    exact exec_bind_error first _
  | ok out =>
    obtain ⟨low, half⟩ := out
    rw [hf] at first
    have second := commits_popByte half
    refine (exec_bind_ok first _).trans ?_
    cases hs : half.popByte with
    | error f =>
      rw [hs] at second
      simp only [hs]
      exact exec_bind_error second _
    | ok out =>
      obtain ⟨high, whole⟩ := out
      rw [hs] at second
      simp only [hs]
      exact exec_bind_ok second _

theorem follows_attempt {p : Process α} {m : Machine} {attempt : Attempt α}
    (h : p.exec m.toWords = some (attempt.result.mapError Fault.toWords, attempt.machine.toWords)) :
    p.Follows m attempt.commit := by
  obtain ⟨n, result⟩ := attempt
  cases result with
  | ok a => exact h
  | error f => exact ⟨n.toWords, h⟩

theorem follows_pushWord (m : Machine) (value : UInt16) :
    (pushWord value).Follows m ((m.push value).map fun n => ((), n)) := by
  have h := follows_attempt (exec_pushWord m value)
  unfold Machine.push
  cases hc : (m.pushWord value).commit with
  | ok out => rw [hc] at h; exact h
  | error f => rw [hc] at h; exact h

theorem follows_popWord (m : Machine) : popWord.Follows m m.pop :=
  follows_attempt (exec_popWord m)

end Process

end I8080
