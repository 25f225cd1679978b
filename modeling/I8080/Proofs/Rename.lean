import I8080.Proofs.Resolution

namespace I8080

section Definitions

variable (f : String → String)

/-- The error about the label of another name. The names in all other errors are those of no label. -/
def AsmError.rename : AsmError → AsmError
  | .duplicateLabel name => .duplicateLabel (f name)
  | .unresolvedLabel name => .unresolvedLabel (f name)
  | e => e

def Complaint.rename (c : Complaint) : Complaint :=
  { c with error := c.error.rename f }

def Diagnostic.rename (d : Diagnostic) : Diagnostic :=
  { d with error := d.error.rename f }

def Reference.rename (r : Reference) : Reference :=
  { r with name := f r.name }

def Fixup.rename (x : Fixup) : Fixup :=
  { x with name := f x.name }

def LabelTable.rename (table : LabelTable) : LabelTable :=
  ⟨table.entries.map fun (name, address) => (f name, address)⟩

end Definitions

variable {f : String → String}

theorem AsmError.rename_of_labelName? {e : AsmError} (h : e.labelName? = none) : e.rename f = e := by
  cases e <;> first | rfl | cases h

theorem AsmError.rename_id (e : AsmError) : e.rename id = e := by
  cases e <;> rfl

theorem Diagnostic.rename_id (d : Diagnostic) : d.rename id = d := by
  rw [Diagnostic.rename, AsmError.rename_id]

theorem LabelTable.rename_id (table : LabelTable) : table.rename id = table := by
  simp [LabelTable.rename]

theorem LabelTable.rename_empty : ({} : LabelTable).rename f = {} := by
  simp [LabelTable.rename]

theorem LabelTable.toList_rename (table : LabelTable) :
    (table.rename f).toList = table.toList.map fun (name, address) => (f name, address) := by
  simp [LabelTable.rename, LabelTable.toList]

theorem LabelTable.get?_rename (injective : Function.Injective f) (table : LabelTable) (name : String) :
    (table.rename f).get? (f name) = table.get? name := by
  have same (entry : String × UInt16) : (f entry.1 == f name) = (entry.1 == name) := by simp [injective.eq_iff]
  simp only [LabelTable.get?, LabelTable.rename, Array.find?_map, Function.comp_def, same, Option.map_map]

theorem LabelTable.insert_rename (injective : Function.Injective f) (table : LabelTable) (name : String)
    (address : UInt16) :
    (table.rename f).insert (f name) address = (table.insert name address).rename f := by
  unfold LabelTable.insert
  rw [LabelTable.get?_rename injective]
  cases table.get? name with
  | none => simp [LabelTable.rename]
  | some _ =>
    simp only [LabelTable.rename, Array.map_map, LabelTable.mk.injEq]
    congr 1
    funext entry
    simp only [Function.comp_apply, injective.eq_iff]
    split
    next => rfl
    next => rfl

theorem LabelTable.insert?_rename (injective : Function.Injective f) (table : LabelTable) (name : String)
    (address : UInt16) :
    (table.rename f).insert? (f name) address = (table.insert? name address).map (LabelTable.rename f) := by
  unfold LabelTable.insert?
  rw [LabelTable.get?_rename injective, LabelTable.insert_rename injective]
  cases table.get? name with
  | some _ => rfl
  | none => rfl

end I8080
