namespace I8080

/-- The addresses of labels, in the order of their definition. -/
structure LabelTable where
  entries : Array (String × UInt16) := #[]
  deriving DecidableEq

def LabelTable.get? (table : LabelTable) (name : String) : Option UInt16 :=
  (table.entries.find? fun entry => entry.1 == name).map Prod.snd

/-- Gives a name an address. One that the name has already is overwritten where it stands. -/
def LabelTable.insert (table : LabelTable) (name : String) (address : UInt16) : LabelTable :=
  match table.get? name with
  | some _ => ⟨table.entries.map fun entry => if entry.1 = name then (name, address) else entry⟩
  | none => ⟨table.entries.push (name, address)⟩

/-- Adds a label, unless the name already has an address. -/
def LabelTable.insert? (table : LabelTable) (name : String) (address : UInt16) : Option LabelTable :=
  match table.get? name with
  | some _ => none
  | none => some (table.insert name address)

def LabelTable.toList (table : LabelTable) : List (String × UInt16) :=
  table.entries.toList

def LabelTable.size (table : LabelTable) : Nat :=
  table.entries.size

def LabelTable.isEmpty (table : LabelTable) : Bool :=
  table.entries.isEmpty

theorem LabelTable.insert?_eq_some {table next : LabelTable} {name : String} {address : UInt16}
    (h : table.insert? name address = some next) : table.get? name = none ∧ table.insert name address = next := by
  unfold LabelTable.insert? at h
  split at h
  next => cases h
  next fresh => exact ⟨fresh, Option.some.inj h⟩

theorem LabelTable.toList_insert? {table next : LabelTable} {name : String} {address : UInt16}
    (h : table.insert? name address = some next) : next.toList = table.toList ++ [(name, address)] := by
  obtain ⟨fresh, rfl⟩ := LabelTable.insert?_eq_some h
  simp [LabelTable.insert, LabelTable.toList, fresh]

end I8080
