import I8080.Proofs.Exchange
import I8080.Proofs.LabelAddress
import Mathlib.Data.Finset.Card

namespace I8080

/-- What is asked of a label table. -/
inductive LabelCall where
  | insert (name : String) (address : UInt16)
  | get (name : String)
  deriving DecidableEq

inductive LabelAnswer where
  | inserted (fresh : Bool)
  | found (address : Option UInt16)
  deriving DecidableEq

/-- A name that has an address keeps it, and the table stays as it is. -/
def LabelTable.answer (table : LabelTable) : LabelCall → LabelAnswer × LabelTable
  | .insert name address =>
    match table.insert? name address with
    | some next => (.inserted true, next)
    | none => (.inserted false, table)
  | .get name => (.found (table.get? name), table)

def LabelTable.serve (table : LabelTable) (calls : List LabelCall) : List LabelAnswer × LabelTable :=
  exchange LabelTable.answer table calls

def LabelCall.entry? : LabelCall → Option (String × UInt16)
  | .insert name address => some (name, address)
  | .get _ => none

/-- The names that were to be inserted, each with its address, those that had one already too. -/
def requestedEntries (calls : List LabelCall) : List (String × UInt16) :=
  calls.filterMap LabelCall.entry?

/-- The answer to a call after others: what came first for a name counts. -/
def LabelCall.expected (past : List LabelCall) : LabelCall → LabelAnswer
  | .insert name _ => .inserted (decide (name ∉ (requestedEntries past).map Prod.fst))
  | .get name => .found ((requestedEntries past).lookup name)

theorem LabelTable.get?_of_mem {table : LabelTable} (distinct : (table.toList.map Prod.fst).Nodup)
    {entry : String × UInt16} (mem : entry ∈ table.toList) : table.get? entry.1 = some entry.2 := by
  obtain ⟨address, get⟩ :=
    Option.ne_none_iff_exists'.mp (LabelTable.get?_ne_none_iff.mpr (List.mem_map_of_mem mem))
  obtain ⟨first, found, rfl⟩ := Option.map_eq_some_iff.mp get
  have listed : first ∈ table.toList := Array.mem_toList_iff.mpr (Array.mem_of_find?_eq_some found)
  have same : first.1 = entry.1 := by simpa using Array.find?_some found
  rw [get, List.inj_on_of_nodup_map distinct listed mem same]

/-- A table that has the first address that each name was to be inserted with, in the order of those first times. -/
structure LabelTable.Keeps (entries : List (String × UInt16)) (table : LabelTable) : Prop where
  names : table.toList.map Prod.fst = (entries.map Prod.fst).eraseDups
  found : ∀ name, table.get? name = entries.lookup name

namespace LabelTable.Keeps

variable {entries : List (String × UInt16)} {table : LabelTable}

theorem start : LabelTable.Keeps [] {} :=
  ⟨rfl, LabelTable.get?_empty⟩

theorem mem_names_iff (h : table.Keeps entries) {name : String} :
    table.get? name ≠ none ↔ name ∈ entries.map Prod.fst := by
  rw [LabelTable.get?_ne_none_iff, h.names, List.mem_eraseDups]

theorem listed (h : table.Keeps entries) :
    table.toList.map (fun entry => (entry.1, some entry.2)) =
      (entries.map Prod.fst).eraseDups.map fun name => (name, entries.lookup name) := by
  have distinct : (table.toList.map Prod.fst).Nodup := h.names ▸ nodup_eraseDups _
  rw [← h.names, List.map_map]
  refine List.map_congr_left fun entry mem => ?_
  rw [Function.comp_apply, ← h.found, LabelTable.get?_of_mem distinct mem]

/-- A name with an address may be inserted again, and nothing comes of it. -/
theorem known (h : table.Keeps entries) {name : String} (mem : name ∈ entries.map Prod.fst) (address : UInt16) :
    table.Keeps (entries ++ [(name, address)]) := by
  constructor
  case names =>
    rw [List.map_append, eraseDups_append_of_subset (by simpa using mem), h.names]
  case found =>
    intro query
    rw [List.lookup_append, h.found]
    by_cases same : query = name
    · subst same
      obtain ⟨first, get⟩ := Option.ne_none_iff_exists'.mp (h.mem_names_iff.mpr mem)
      rw [← h.found, get, Option.some_or]
    · rw [List.lookup_cons, beq_false_of_ne same, List.lookup_nil, Option.or_none]

theorem insert (h : table.Keeps entries) {next : LabelTable} {name : String} {address : UInt16}
    (inserted : table.insert? name address = some next) : next.Keeps (entries ++ [(name, address)]) := by
  have unknown := LabelTable.get?_eq_none_of_insert? inserted
  have fresh : name ∉ entries.map Prod.fst := fun mem => h.mem_names_iff.mpr mem unknown
  constructor
  case names =>
    rw [LabelTable.toList_insert? inserted, List.map_append, List.map_append, h.names]
    exact (eraseDups_append_singleton fresh).symm
  case found =>
    intro query
    rw [LabelTable.get?_insert? inserted, List.lookup_append, ← h.found]
    split
    next same => rw [same, unknown, Option.none_or, List.lookup_cons_self]
    next other => rw [List.lookup_cons, beq_false_of_ne other, List.lookup_nil, Option.or_none]

/-- What a call is answered, and what the table keeps after it. -/
theorem answer {past : List LabelCall} (h : table.Keeps (requestedEntries past)) (call : LabelCall) :
    (table.answer call).1 = call.expected past ∧ (table.answer call).2.Keeps (requestedEntries (past ++ [call])) := by
  have requested : requestedEntries (past ++ [call]) = requestedEntries past ++ requestedEntries [call] :=
    List.filterMap_append
  rw [requested]
  cases call with
  | get name =>
    refine ⟨congrArg LabelAnswer.found (h.found name), ?_⟩
    rwa [show requestedEntries [.get name] = [] from rfl, List.append_nil]
  | insert name address =>
    have entry : requestedEntries [.insert name address] = [(name, address)] := rfl
    rw [entry, LabelTable.answer, LabelCall.expected]
    cases inserted : table.insert? name address with
    | none =>
      have mem := h.mem_names_iff.mp (LabelTable.insert?_eq_none_iff.mp inserted)
      exact ⟨by simp [mem], h.known mem address⟩
    | some next =>
      have fresh : name ∉ (requestedEntries past).map Prod.fst := fun mem =>
        h.mem_names_iff.mpr mem (LabelTable.get?_eq_none_of_insert? inserted)
      exact ⟨by rw [decide_eq_true fresh], h.insert inserted⟩

theorem serve (calls : List LabelCall) :
    (({} : LabelTable).serve calls).2.Keeps (requestedEntries calls) :=
  exchange_preserves LabelTable.answer {} (P := fun past table => table.Keeps (requestedEntries past)) start
    (fun _ _ call h => (h.answer call).2) calls

end LabelTable.Keeps

theorem LabelTable.toList_answer_prefix (table : LabelTable) (call : LabelCall) :
    table.toList <+: (table.answer call).2.toList := by
  cases call with
  | get name => exact List.prefix_refl _
  | insert name address =>
    rw [LabelTable.answer]
    cases inserted : table.insert? name address with
    | none => exact List.prefix_refl _
    | some next => exact ⟨_, (LabelTable.toList_insert? inserted).symm⟩

theorem LabelTable.toList_serve_prefix (table : LabelTable) (calls : List LabelCall) :
    table.toList <+: (table.serve calls).2.toList :=
  exchange_preserves LabelTable.answer table (P := fun _ later => table.toList <+: later.toList) (List.prefix_refl _)
    (fun _ later call h => h.trans (later.toList_answer_prefix call)) calls

theorem card_eq_length_eraseDups {α : Type} [DecidableEq α] (as : List α) :
    as.toFinset.card = as.eraseDups.length := by
  rw [← List.toFinset_card_of_nodup (nodup_eraseDups as)]
  congr 1
  ext a
  simp

/-- Calls on a new table are answered by the first address of each name. The table lists each name once with that address,
in the order of the first times, and what comes later moves or changes no entry. -/
theorem LabelTable.serve_keeps_first (past : List LabelCall) :
    let entries := requestedEntries past
    let table := (({} : LabelTable).serve past).2
    (∀ call later, (({} : LabelTable).serve (past ++ call :: later)).1[past.length]? = some (call.expected past)) ∧
      table.toList.map (fun entry => (entry.1, some entry.2)) =
        (entries.map Prod.fst).eraseDups.map (fun name => (name, entries.lookup name)) ∧
      (∀ name, table.get? name = entries.lookup name) ∧
      table.size = (entries.map Prod.fst).toFinset.card ∧
      (table.isEmpty = true ↔ table.size = 0) ∧
      ∀ later, table.toList <+: (({} : LabelTable).serve (past ++ later)).2.toList := by
  intro entries table
  have keeps : table.Keeps entries := .serve past
  refine ⟨fun call later => ?_, keeps.listed, keeps.found, ?_, ?_, fun later => ?_⟩
  · rw [LabelTable.serve, getElem?_exchange]
    exact congrArg some (keeps.answer call).1
  · rw [card_eq_length_eraseDups, ← keeps.names, List.length_map]
    rfl
  · simp [LabelTable.isEmpty, LabelTable.size]
  · rw [LabelTable.serve, exchange_append]
    exact table.toList_serve_prefix later

example : (({} : LabelTable).serve [.insert "go" 2048, .insert "Go" 2049, .insert "go" 2050, .get "go"]).1 =
    [.inserted true, .inserted true, .inserted false, .found (some 2048)] := by decide

end I8080
