import I8080.Display.Trace
import I8080.Machine.Run
import I8080.Proofs.Footprint
import Mathlib.Order.Bounds.Defs
import Mathlib.Tactic.ByContra

namespace I8080

/-- The machine after `k` steps, unless one of them fails. A machine that has halted stays as it is. -/
def Machine.after? (m : Machine) : Nat → Option Machine
  | 0 => some m
  | k + 1 => (m.after? k).bind fun s => s.next.toOption

def Machine.haltTimes (m : Machine) : Set Nat :=
  fun k => ∃ s, m.after? k = some s ∧ s.halted = true

def Machine.faultTimes (m : Machine) : Set Nat :=
  fun k => ∃ s fault, m.after? k = some s ∧ s.next = .error fault

/-- How a run with a limit is over: after how many steps, at which machine, and why. -/
inductive Machine.Concludes (m : Machine) (limit : Nat) : Nat → Machine → Ending → Prop where
  | halted {k : Nat} {s : Machine} (first : IsLeast m.haltTimes k) (within : k ≤ limit)
      (reached : m.after? k = some s) : Machine.Concludes m limit k s .halted
  | fault {k : Nat} {s : Machine} {f : Fault} (unhalted : ∀ h ∈ m.haltTimes, limit < h)
      (first : IsLeast m.faultTimes k) (within : k < limit) (reached : m.after? k = some s)
      (fails : s.next = .error f) : Machine.Concludes m limit k s (.fault f)
  | limit {s : Machine} (unhalted : ∀ h ∈ m.haltTimes, limit < h) (unfailed : ∀ e ∈ m.faultTimes, limit ≤ e)
      (reached : m.after? limit = some s) : Machine.Concludes m limit limit s .limit

/-- The trace line of an instruction that a machine is about to execute, with the bytes that stand in memory. -/
def Machine.traceText (m : Machine) (i : Instr) : String :=
  let bytes := (List.range i.size).map fun d => m.memory.wrapped (m.pc + d)
  hexWord (addressOf m.pc) ++ "  " ++ Column.left 8 (Hex.row bytes) ++ "  " ++ i.toText ++ "\n"

/-- The lines are the trace of the first steps of a machine. -/
def Machine.Traces (m : Machine) (lines : List String) : Prop :=
  ∀ k line, lines[k]? = some line → ∃ s i, m.after? k = some s ∧ s.current? = some i ∧ line = s.traceText i

theorem Machine.traceLine_eq {m : Machine} {i : Instr} (h : m.current? = some i) :
    Traced.line ⟨m.pc, i⟩ = m.traceText i := by
  have bytes : i.encode = (List.range i.size).map fun d => m.memory.wrapped (m.pc + d) := by
    rw [Instr.encode_of_decode h, m.take_bytes i.size_le]
  rw [Traced.line, traceLine, bytes, Machine.traceText]

theorem Machine.next_of_executed {m n : Machine} {i : Instr} (h : m.step = .ok (.executed i n)) :
    m.next = .ok n := by
  rw [Machine.next, h]
  rfl

theorem Machine.next_of_error {m : Machine} {f : Fault} (h : m.step = .error f) : m.next = .error f := by
  rw [Machine.next, h]
  rfl

theorem Machine.halted_of_step {m : Machine} (h : m.step = .ok .halted) : m.halted = true := by
  cases running : m.halted with
  | true => rfl
  | false =>
    rcases Machine.step_cases running with
      ⟨-, fault⟩ | ⟨i, -, ⟨address, -, fault⟩ | ⟨-, n, -, executed⟩⟩
    · cases fault.symm.trans h
    · cases fault.symm.trans h
    · cases executed.symm.trans h

theorem Machine.step_of_halted {m : Machine} (h : m.halted = true) : m.step = .ok .halted := by
  rw [Machine.step, if_pos h]

theorem Machine.after?_succ {m s : Machine} {k : Nat} (h : m.after? k = some s) :
    m.after? (k + 1) = s.next.toOption := by
  rw [Machine.after?, h, Option.bind_some]

theorem Machine.after?_of_le {m s : Machine} {j k : Nat} (h : m.after? k = some s) (hle : j ≤ k) :
    ∃ t, m.after? j = some t := by
  induction k generalizing s with
  | zero =>
    cases Nat.le_zero.mp hle
    exact ⟨s, h⟩
  | succ k ih =>
    rcases Nat.le_succ_iff.mp hle with earlier | rfl
    · obtain ⟨t, before, -⟩ := Option.bind_eq_some_iff.mp h
      exact ih before earlier
    · exact ⟨s, h⟩

theorem Machine.le_of_faultTimes {m s : Machine} {e k : Nat} (fails : e ∈ m.faultTimes)
    (h : m.after? k = some s) : k ≤ e := by
  obtain ⟨t, f, reached, fault⟩ := fails
  by_contra later
  obtain ⟨u, past⟩ := Machine.after?_of_le h (Nat.lt_of_not_le later)
  rw [Nat.succ_eq_add_one, Machine.after?_succ reached, fault] at past
  cases past

theorem Machine.not_mem_haltTimes {m s : Machine} {k : Nat} (reached : m.after? k = some s)
    (running : s.halted = false) : k ∉ m.haltTimes := by
  rintro ⟨t, same, halted⟩
  cases reached.symm.trans same
  cases running.symm.trans halted

theorem Machine.Traces.concat {m s : Machine} {i : Instr} {lines : List String} (traces : m.Traces lines)
    (reached : m.after? lines.length = some s) (current : s.current? = some i) :
    m.Traces (lines ++ [s.traceText i]) := by
  intro k line h
  by_cases earlier : k < lines.length
  · rw [List.getElem?_append_left earlier] at h
    exact traces k line h
  · obtain ⟨inside, rfl⟩ := List.getElem?_eq_some_iff.mp h
    have last : k = lines.length := by
      rw [List.length_append, List.length_singleton] at inside
      omega
    subst last
    exact ⟨s, i, reached, current, by simp⟩

/-- A run has taken the steps in the trace, none of them from a halted machine, and stands at a machine. -/
structure Machine.Pursues (m : Machine) (trace : Array Traced) (s : Machine) : Prop where
  reached : m.after? trace.size = some s
  unhalted : ∀ h ∈ m.haltTimes, trace.size ≤ h
  traces : m.Traces (trace.toList.map Traced.line)

theorem Machine.pursues_start (m : Machine) : m.Pursues #[] m where
  reached := rfl
  unhalted h _ := Nat.zero_le h
  traces k line h := by cases h

namespace Machine.Pursues

variable {m s : Machine} {trace : Array Traced}

theorem later (p : m.Pursues trace s) (running : s.halted = false) : ∀ h ∈ m.haltTimes, trace.size < h := by
  intro h halts
  refine Nat.lt_of_le_of_ne (p.unhalted h halts) ?_
  rintro rfl
  exact Machine.not_mem_haltTimes p.reached running halts

theorem push {i : Instr} {n : Machine} (p : m.Pursues trace s) (h : s.step = .ok (.executed i n)) :
    m.Pursues (trace.push ⟨s.pc, i⟩) n := by
  obtain ⟨running, current, -⟩ := Machine.step_eq_executed h
  constructor
  · rw [Array.size_push, Machine.after?_succ p.reached, Machine.next_of_executed h]
    rfl
  · rw [Array.size_push]
    exact p.later running
  · have traces := p.traces.concat (by simpa using p.reached) current
    rw [← Machine.traceLine_eq current] at traces
    simpa using traces

theorem halted (p : m.Pursues trace s) (h : s.halted = true) (more : Nat) :
    m.Concludes (trace.size + more) trace.size s .halted :=
  .halted ⟨⟨s, p.reached, h⟩, p.unhalted⟩ (Nat.le_add_right ..) p.reached

theorem fault {f : Fault} (p : m.Pursues trace s) (h : s.step = .error f) (more : Nat) :
    m.Concludes (trace.size + (more + 1)) trace.size s (.fault f) := by
  have fails := Machine.next_of_error h
  have failed : trace.size ∈ m.faultTimes := ⟨s, f, p.reached, fails⟩
  have first : ∀ e ∈ m.faultTimes, trace.size ≤ e := fun e he => Machine.le_of_faultTimes he p.reached
  have running : s.halted = false := by
    cases halted : s.halted with
    | false => rfl
    | true => cases h.symm.trans (Machine.step_of_halted halted)
  refine .fault ?_ ⟨failed, first⟩ (by omega) p.reached fails
  rintro k ⟨t, reached, halted⟩
  have le := Machine.le_of_faultTimes failed reached
  have lt := p.later running k ⟨t, reached, halted⟩
  omega

theorem limit (p : m.Pursues trace s) (running : s.halted = false) :
    m.Concludes trace.size trace.size s .limit :=
  .limit (p.later running) (fun _ he => Machine.le_of_faultTimes he p.reached) p.reached

/-- From a machine that a run has come to, it concludes as a run from the start. -/
theorem concludes (p : m.Pursues trace s) (limit : Nat) :
    let r := Machine.runFrom trace limit s
    m.Concludes (trace.size + limit) r.executed r.machine r.ending ∧ m.Traces r.traceLines := by
  -- By induction on the steps left, from every machine that the run comes to.
  induction limit generalizing s trace with
  | zero =>
    refine ⟨?_, p.traces⟩
    cases h : s.halted with
    | true => simpa [Machine.runFrom, Run.executed, h] using p.halted h 0
    | false => simpa [Machine.runFrom, Run.executed, h] using p.limit h
  | succ limit ih =>
    rw [Machine.runFrom]
    split
    next i n h =>
      have rest := ih (p.push h)
      rw [Array.size_push, Nat.add_right_comm] at rest
      exact rest
    next h => exact ⟨p.halted (Machine.halted_of_step h) _, p.traces⟩
    next f h => exact ⟨p.fault h limit, p.traces⟩

end Machine.Pursues

theorem Machine.run_concludes (m : Machine) (limit : Nat) :
    let r := m.run limit
    m.Concludes limit r.executed r.machine r.ending ∧ m.Traces r.traceLines := by
  have run := m.pursues_start.concludes limit
  rw [Array.size_empty, Nat.zero_add] at run
  exact run

/-- Whether a run comes to a halt or to a fault before it comes to its limit. -/
def Machine.OverWithin (m : Machine) (limit : Nat) : Prop :=
  (∃ h ∈ m.haltTimes, h ≤ limit) ∨ ∃ e ∈ m.faultTimes, e < limit

theorem Machine.Concludes.ending_ne_limit {m s : Machine} {limit k : Nat} {ending : Ending}
    (concludes : m.Concludes limit k s ending) (ends : m.OverWithin limit) : ending ≠ .limit := by
  cases concludes with
  | halted => exact Ending.noConfusion
  | fault => exact Ending.noConfusion
  | limit unhalted unfailed reached =>
    rcases ends with ⟨h, halts, within⟩ | ⟨e, fails, within⟩
    · have later := unhalted h halts
      omega
    · have later := unfailed e fails
      omega

theorem Machine.runFrom_of_halted {s : Machine} (h : s.halted = true) (trace : Array Traced) (limit : Nat) :
    Machine.runFrom trace limit s = ⟨s, trace, .halted⟩ := by
  cases limit with
  | zero => rw [Machine.runFrom, if_pos h]
  | succ limit => rw [Machine.runFrom, Machine.step_of_halted h]

theorem Machine.runFrom_of_le {s : Machine} {trace : Array Traced} {limit more : Nat} (hle : limit ≤ more)
    (decided : (Machine.runFrom trace limit s).ending ≠ .limit) :
    Machine.runFrom trace more s = Machine.runFrom trace limit s := by
  induction limit generalizing s trace more with
  | zero =>
    have halted : s.halted = true := by
      by_contra running
      rw [Machine.runFrom, if_neg running] at decided
      exact decided rfl
    rw [Machine.runFrom_of_halted halted, Machine.runFrom_of_halted halted]
  | succ limit ih =>
    obtain ⟨more, rfl⟩ : ∃ n, more = n + 1 := ⟨more - 1, by omega⟩
    rw [Machine.runFrom] at decided
    rw [Machine.runFrom, Machine.runFrom]
    split at decided
    next i n h => exact ih (Nat.le_of_succ_le_succ hle) decided
    next h => rfl
    next f h => rfl

end I8080
