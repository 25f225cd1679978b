import I8080.Assembly.LabelTable
import Mathlib.Data.Option.Basic
import Mathlib.Tactic.ByContra

namespace I8080

theorem LabelTable.get?_empty (name : String) : ({} : LabelTable).get? name = none := by
  simp [LabelTable.get?]

theorem LabelTable.insert?_eq_none_iff {table : LabelTable} {name : String} {address : UInt16} :
    table.insert? name address = none ↔ table.get? name ≠ none := by
  unfold LabelTable.insert?
  split
  next heq => simp [heq]
  next heq => simp [heq]

/-- The last address that a name was given is the one that it has. -/
theorem LabelTable.get?_insert (table : LabelTable) (name : String) (address : UInt16) (query : String) :
    (table.insert name address).get? query = if query = name then some address else table.get? query := by
  unfold LabelTable.insert
  split
  next old known =>
    have kept (entry : String × UInt16) : (if entry.1 = name then (name, address) else entry).1 = entry.1 := by
      split
      next same => exact same.symm
      next => rfl
    simp only [LabelTable.get?, Array.find?_map, Function.comp_def, kept, Option.map_map]
    split
    next same =>
      subst same
      obtain ⟨entry, found, -⟩ := Option.map_eq_some_iff.mp known
      have named : entry.1 = query := by simpa using Array.find?_some found
      simp [found, named]
    next other =>
      cases found : table.entries.find? fun entry => entry.1 == query with
      | none => rfl
      | some entry =>
        have named : entry.1 = query := by simpa using Array.find?_some found
        simp [named, other]
  next fresh =>
    simp only [LabelTable.get?, Array.find?_push] at fresh ⊢
    by_cases same : query = name
    · subst same
      simp [Option.map_eq_none_iff.mp fresh]
    · simp [same, Ne.symm same]

theorem LabelTable.get?_insert? {table next : LabelTable} {name : String} {address : UInt16}
    (h : table.insert? name address = some next) (query : String) :
    next.get? query = if query = name then some address else table.get? query := by
  obtain ⟨-, rfl⟩ := LabelTable.insert?_eq_some h
  exact table.get?_insert name address query

theorem LabelTable.get?_eq_none_of_insert? {table next : LabelTable} {name : String} {address : UInt16}
    (h : table.insert? name address = some next) : table.get? name = none :=
  (LabelTable.insert?_eq_some h).1

/-- Every label of the earlier table has the same address here. -/
def LabelTable.Extends (table earlier : LabelTable) : Prop :=
  ∀ name address, earlier.get? name = some address → table.get? name = some address

theorem LabelTable.Extends.refl (table : LabelTable) : table.Extends table :=
  fun _ _ h => h

theorem LabelTable.Extends.trans {first second third : LabelTable} (h : third.Extends second)
    (h' : second.Extends first) : third.Extends first :=
  fun name address ha => h name address (h' name address ha)

theorem LabelTable.extends_insert? {table next : LabelTable} {name : String} {address : UInt16}
    (h : table.insert? name address = some next) : next.Extends table := by
  intro query known hk
  have hne : query ≠ name := by
    rintro rfl
    simp [LabelTable.get?_eq_none_of_insert? h] at hk
  rw [LabelTable.get?_insert? h, if_neg hne, hk]

/-- The address of a label, or 0 for a name that is none. -/
def LabelTable.address (table : LabelTable) (name : String) : UInt16 :=
  (table.get? name).getD 0

theorem LabelTable.address_of_get? {table : LabelTable} {name : String} {address : UInt16}
    (h : table.get? name = some address) : table.address name = address := by
  simp [LabelTable.address, h]

theorem LabelTable.address_of_get?_none {table : LabelTable} {name : String}
    (h : table.get? name = none) : table.address name = 0 := by
  simp [LabelTable.address, h]

theorem LabelTable.Extends.address {table earlier : LabelTable} {name : String}
    (h : table.Extends earlier) (known : earlier.get? name ≠ none) :
    table.address name = earlier.address name := by
  obtain ⟨address, ha⟩ := Option.ne_none_iff_exists'.mp known
  rw [LabelTable.address_of_get? ha, LabelTable.address_of_get? (h name address ha)]

end I8080
