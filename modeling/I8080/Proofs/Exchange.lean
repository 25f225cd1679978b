import Mathlib.Data.List.Induction

namespace I8080

variable {σ κ α : Type}

/-- The answers to calls that are put one after the other, and the state after the last of them. -/
def exchange (answer : σ → κ → α × σ) (s : σ) : List κ → List α × σ
  | [] => ([], s)
  | call :: calls =>
    let first := answer s call
    let later := exchange answer first.2 calls
    (first.1 :: later.1, later.2)

variable (answer : σ → κ → α × σ) (s : σ)

theorem exchange_append (calls others : List κ) :
    exchange answer s (calls ++ others) =
      ((exchange answer s calls).1 ++ (exchange answer (exchange answer s calls).2 others).1,
        (exchange answer (exchange answer s calls).2 others).2) := by
  induction calls generalizing s with
  | nil => rfl
  | cons call calls ih => simp only [List.cons_append, exchange, ih]

theorem length_exchange (calls : List κ) : (exchange answer s calls).1.length = calls.length := by
  induction calls generalizing s with
  | nil => rfl
  | cons call calls ih => rw [exchange, List.length_cons, List.length_cons, ih]

/-- A call is answered from the state that the calls before it leave. -/
theorem getElem?_exchange (past : List κ) (call : κ) (later : List κ) :
    (exchange answer s (past ++ call :: later)).1[past.length]? =
      some (answer (exchange answer s past).2 call).1 := by
  rw [exchange_append, ← length_exchange answer s past, List.getElem?_append_right (Nat.le_refl _), Nat.sub_self]
  rfl

/-- What one call after the other preserves holds after all of them. -/
theorem exchange_preserves {P : List κ → σ → Prop} (start : P [] s)
    (step : ∀ past t call, P past t → P (past ++ [call]) (answer t call).2) (calls : List κ) :
    P calls (exchange answer s calls).2 := by
  induction calls using List.reverseRecOn with
  | nil => exact start
  | append_singleton past call ih =>
    rw [exchange_append]
    exact step past _ call ih

end I8080
