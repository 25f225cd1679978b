import Mathlib.Data.List.Forall2

namespace I8080

theorem exists_of_bind_eq_ok {ε α β : Type} {x : Except ε α} {f : α → Except ε β} {b : β}
    (h : (x >>= f) = .ok b) : ∃ a, x = .ok a ∧ f a = .ok b := by
  cases x with
  | error e => cases h
  | ok a => exact ⟨a, rfl, h⟩

theorem exists_of_map_eq_ok {ε α β : Type} {x : Except ε α} {f : α → β} {b : β}
    (h : x.map f = .ok b) : ∃ a, x = .ok a ∧ f a = b := by
  cases x with
  | error e => cases h
  | ok a => exact ⟨a, rfl, Except.ok.inj h⟩

theorem exists_map_eq_ok_iff {ε α β : Type} {x : Except ε α} {f : α → β} :
    (∃ b, x.map f = .ok b) ↔ ∃ a, x = .ok a := by
  cases x <;> simp [Except.map]

theorem mapM_eq_of_forall_mem {α β ε : Type} {f g : α → Except ε β} {as : List α}
    (h : ∀ a ∈ as, f a = g a) : as.mapM f = as.mapM g := by
  induction as with
  | nil => rfl
  | cons a as ih =>
    rw [List.mapM_cons, List.mapM_cons, h a (by simp), ih fun b hb => h b (by simp [hb])]

theorem mapM_error {α β ε : Type} {f : α → Except ε β} {as : List α} {e : ε} (h : as.mapM f = .error e) :
    ∃ a ∈ as, f a = .error e := by
  induction as with
  | nil => cases h
  | cons a as ih =>
    rw [List.mapM_cons] at h
    cases ha : f a with
    | error e' =>
      rw [ha] at h
      cases h
      exact ⟨a, by simp, ha⟩
    | ok b =>
      rw [ha] at h
      cases hs : as.mapM f with
      | error e' =>
        rw [hs] at h
        cases h
        obtain ⟨a', mem, ha'⟩ := ih hs
        exact ⟨a', by simp [mem], ha'⟩
      | ok bs =>
        rw [hs] at h
        cases h

theorem forall₂_of_mapM {α β ε : Type} {f : α → Except ε β} {as : List α} {bs : List β} (h : as.mapM f = .ok bs) :
    List.Forall₂ (fun a b => f a = .ok b) as bs := by
  induction as generalizing bs with
  | nil =>
    cases h
    exact .nil
  | cons a as ih =>
    rw [List.mapM_cons] at h
    obtain ⟨b, first, rest⟩ := exists_of_bind_eq_ok h
    obtain ⟨later, others, done⟩ := exists_of_bind_eq_ok rest
    cases done
    exact .cons first (ih others)

theorem length_of_mapM {α β ε : Type} {f : α → Except ε β} {as : List α} {bs : List β} (h : as.mapM f = .ok bs) :
    bs.length = as.length :=
  (forall₂_of_mapM h).length_eq.symm

/-- What is attached to each result does not change whether there is one. -/
theorem mapM_pair {α β γ ε : Type} (f : α → Except ε β) (g : α → γ) (as : List α) :
    as.mapM (fun a => (f a).map fun b => (b, g a)) = (as.mapM f).map fun bs => bs.zip (as.map g) := by
  induction as with
  | nil => rfl
  | cons a as ih =>
    rw [List.mapM_cons, List.mapM_cons, ih]
    cases f a with
    | error e => rfl
    | ok b => cases as.mapM f <;> rfl

/-- Two attempts that both fail, with related errors, or both come off, with related results. -/
inductive Alike {ε δ α β : Type} (fails : ε → δ → Prop) (ends : α → β → Prop) : Except ε α → Except δ β → Prop
  | error {e : ε} {d : δ} (same : fails e d) : Alike fails ends (.error e) (.error d)
  | ok {a : α} {b : β} (same : ends a b) : Alike fails ends (.ok a) (.ok b)

namespace Alike

variable {ε δ α β α' β' : Type} {fails : ε → δ → Prop} {ends : α → β → Prop} {ends' : α' → β' → Prop}
  {x : Except ε α} {y : Except δ β}

theorem bind (h : Alike fails ends x y) {f : α → Except ε α'} {g : β → Except δ β'}
    (next : ∀ a b, ends a b → Alike fails ends' (f a) (g b)) : Alike fails ends' (x >>= f) (y >>= g) := by
  cases h with
  | error same => exact .error same
  | ok same => exact next _ _ same

theorem map (h : Alike fails ends x y) {f : α → α'} {g : β → β'} (next : ∀ a b, ends a b → ends' (f a) (g b)) :
    Alike fails ends' (x.map f) (y.map g) := by
  cases h with
  | error same => exact .error same
  | ok same => exact .ok (next _ _ same)

theorem mapError {ε' δ' : Type} {fails' : ε' → δ' → Prop} (h : Alike fails ends x y) {f : ε → ε'} {g : δ → δ'}
    (next : ∀ e d, fails e d → fails' (f e) (g d)) : Alike fails' ends (x.mapError f) (y.mapError g) := by
  cases h with
  | error same => exact .error (next _ _ same)
  | ok same => exact .ok same

theorem mapM {γ γ' : Type} {same : γ → γ' → Prop} {as : List γ} {bs : List γ'} (h : List.Forall₂ same as bs)
    {f : γ → Except ε α} {g : γ' → Except δ β} (each : ∀ a b, same a b → Alike fails ends (f a) (g b)) :
    Alike fails (List.Forall₂ ends) (as.mapM f) (bs.mapM g) := by
  induction h with
  | nil => exact .ok .nil
  | cons first _ ih =>
    rw [List.mapM_cons, List.mapM_cons]
    exact (each _ _ first).bind fun _ _ one => ih.bind fun _ _ others => .ok (.cons one others)

theorem refl (x : Except ε α) : Alike Eq Eq x x := by
  cases x with
  | error e => exact .error rfl
  | ok a => exact .ok rfl

end Alike

end I8080
