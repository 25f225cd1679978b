import I8080.Proofs.Exchange
import I8080.Proofs.UnsignedText
import I8080.Settings
import Mathlib.Logic.Function.Basic

namespace I8080

/-- The variables that the program looks at. A setting goes by the name of its variable. -/
inductive Variable where
  | trace
  | limit
  deriving DecidableEq

/-- What the process environment holds: the bytes of each variable that is set. -/
abbrev ProcessValues : Type :=
  Variable → Option (List UInt8)

def utf8Bytes (text : String) : List UInt8 :=
  text.toUTF8.data.toList

/-- The text of a value. One that is no text is as good as none. -/
def textOf? (bytes : List UInt8) : Option String :=
  String.fromUTF8? ⟨bytes.toArray⟩

def Variables.ofValues (values : ProcessValues) : Variables where
  trace := (values .trace).bind textOf?
  limit := (values .limit).bind textOf?

def Variables.set (vars : Variables) (text : Option String) : Variable → Variables
  | .trace => { vars with trace := text }
  | .limit => { vars with limit := text }

def Settings.ofValues (values : ProcessValues) : Settings :=
  .ofVariables (.ofValues values)

/-- What may happen: a variable is set or removed, the settings are taken anew, or one of them is asked for. -/
inductive EnvironmentCall where
  | change (v : Variable) (value : Option (List UInt8))
  | init
  | read (setting : Variable)
  deriving DecidableEq

def EnvironmentCall.isChange : EnvironmentCall → Bool
  | .change .. => true
  | .init | .read _ => false

inductive Reading where
  | trace (on : Bool)
  | limit (steps : Option Nat)
  deriving DecidableEq

def Settings.reading (s : Settings) : Variable → Reading
  | .trace => .trace s.trace
  | .limit => .limit s.limit

def Environment.answer (e : Environment) : EnvironmentCall → Option Reading × Environment
  | .change v value => (none, { e with vars := e.vars.set (value.bind textOf?) v })
  | .init => (none, e.init)
  | .read setting => (some (e.settings.1.reading setting), e.settings.2)

def Environment.serve (e : Environment) (calls : List EnvironmentCall) : List (Option Reading) × Environment :=
  exchange Environment.answer e calls

/-- A thread that has not looked at the process environment yet. -/
def Environment.fresh (values : ProcessValues) : Environment where
  vars := .ofValues values

def EnvironmentCall.values (values : ProcessValues) : EnvironmentCall → ProcessValues
  | .change v value => Function.update values v value
  | .init | .read _ => values

/-- What the process environment holds after calls. -/
def valuesAfter (start : ProcessValues) (calls : List EnvironmentCall) : ProcessValues :=
  calls.foldl EnvironmentCall.values start

/-- Calls, and those of them before the settings were last taken: before the last `init`, or without one before the first
time that a setting was read. -/
inductive TakenAfter : List EnvironmentCall → List EnvironmentCall → Prop
  | init (before : List EnvironmentCall) {later : List EnvironmentCall} (last : .init ∉ later) :
      TakenAfter (before ++ .init :: later) before
  | read {before : List EnvironmentCall} (untaken : ∀ call ∈ before, call.isChange = true) (setting : Variable)
      {later : List EnvironmentCall} (last : .init ∉ later) : TakenAfter (before ++ .read setting :: later) before

/-- The settings that values ask for: a trace by the text `1` alone, a limit by a number between blanks. -/
structure Settings.AskedBy (values : ProcessValues) (s : Settings) : Prop where
  trace : s.trace = true ↔ values .trace = some (utf8Bytes "1")
  limit : ∀ n, s.limit = some n ↔ ∃ text core, values .limit = some (utf8Bytes text) ∧
    Trims text.toList core ∧ Numeral.Unsigned core n

theorem textOf?_eq_some_iff {bytes : List UInt8} {text : String} :
    textOf? bytes = some text ↔ bytes = utf8Bytes text := by
  unfold textOf? String.fromUTF8?
  constructor
  · intro h
    split at h
    next valid =>
      cases Option.some.inj h
      rfl
    next => cases h
  · rintro rfl
    have same : (⟨(utf8Bytes text).toArray⟩ : ByteArray) = text.toByteArray := by simp [utf8Bytes]
    rw [same, dif_pos text.isValidUTF8]
    rfl

theorem Settings.ofValues_asked (values : ProcessValues) : (Settings.ofValues values).AskedBy values := by
  have text {v : Variable} {s : String} :
      (values v).bind textOf? = some s ↔ values v = some (utf8Bytes s) := by
    simp [Option.bind_eq_some_iff, textOf?_eq_some_iff]
  constructor
  case trace =>
    have read : (Settings.ofValues values).trace = true ↔ (values .trace).bind textOf? = some "1" := decide_eq_true_iff
    rw [read, text]
  case limit =>
    intro n
    have read : (Settings.ofValues values).limit =
        ((values .limit).bind textOf?).bind fun s => Numeral.unsigned? (trimBlank s.toList) := rfl
    rw [read, Option.bind_eq_some_iff]
    simp only [text, Numeral.unsigned?_eq_some_iff]
    constructor
    · rintro ⟨s, held, number⟩
      exact ⟨s, trimBlank s.toList, held, trims_trimBlank s.toList, number⟩
    · rintro ⟨s, core, held, trims, number⟩
      exact ⟨s, held, trims.trimBlank_eq ▸ number⟩

theorem cases_of_concat {α : Type} {past before later : List α} {last mark : α}
    (h : past ++ [last] = before ++ mark :: later) :
    last = mark ∧ before = past ∧ later = [] ∨ ∃ rest, later = rest ++ [last] ∧ past = before ++ mark :: rest := by
  rcases later.eq_nil_or_concat with rfl | ⟨rest, final, rfl⟩
  · obtain ⟨rfl, same⟩ := List.append_inj' h rfl
    exact .inl ⟨List.singleton_inj.mp same, rfl, rfl⟩
  · rw [List.concat_eq_append, ← List.cons_append, ← List.append_assoc] at h
    obtain ⟨rfl, same⟩ := List.append_inj' h rfl
    cases List.singleton_inj.mp same
    exact .inr ⟨rest, List.concat_eq_append, rfl⟩

namespace TakenAfter

variable {past before more : List EnvironmentCall} {call : EnvironmentCall}

theorem append (h : TakenAfter past before) (quiet : .init ∉ more) : TakenAfter (past ++ more) before := by
  cases h with
  | init before last =>
    rw [List.append_assoc, List.cons_append]
    exact .init before (by simp [last, quiet])
  | read untaken setting last =>
    rw [List.append_assoc, List.cons_append]
    exact .read untaken setting (by simp [last, quiet])

/-- The settings were taken by the last call or before it. -/
theorem of_concat (h : TakenAfter (past ++ [call]) before) :
    call = .init ∧ before = past ∨ call ≠ .init ∧ TakenAfter past before ∨
      (∃ setting, call = .read setting) ∧ before = past ∧ ∀ call ∈ past, call.isChange = true := by
  generalize all : past ++ [call] = calls at h
  cases h with
  | init before last =>
    rcases cases_of_concat all with ⟨rfl, rfl, -⟩ | ⟨later, rfl, rfl⟩
    · exact .inl ⟨rfl, rfl⟩
    · rw [List.mem_append, not_or, List.mem_singleton] at last
      exact .inr (.inl ⟨Ne.symm last.2, .init before last.1⟩)
  | read untaken setting last =>
    rcases cases_of_concat all with ⟨rfl, rfl, -⟩ | ⟨later, rfl, rfl⟩
    · exact .inr (.inr ⟨⟨setting, rfl⟩, rfl, untaken⟩)
    · rw [List.mem_append, not_or, List.mem_singleton] at last
      exact .inr (.inl ⟨Ne.symm last.2, .read untaken setting last.1⟩)

/-- Whoever asks for a setting finds it taken, if need be at that moment. -/
theorem exists_of_not_change (taken : ∃ call ∈ past, call.isChange = false) : ∃ before, TakenAfter past before := by
  induction past using List.reverseRecOn with
  | nil => simp at taken
  | append_singleton past call ih =>
    by_cases earlier : ∃ call ∈ past, call.isChange = false
    · by_cases init : call = .init
      · exact ⟨past, init ▸ .init past List.not_mem_nil⟩
      · obtain ⟨before, h⟩ := ih earlier
        exact ⟨before, h.append (by simpa using Ne.symm init)⟩
    · have changes : ∀ call ∈ past, call.isChange = true := by simpa using earlier
      cases call with
      | init => exact ⟨past, .init past List.not_mem_nil⟩
      | read setting => exact ⟨past, .read changes setting List.not_mem_nil⟩
      | change v value =>
        obtain ⟨call, mem, other⟩ := taken
        rcases List.mem_append.mp mem with before | last
        · exact absurd ⟨call, before, other⟩ earlier
        · cases List.mem_singleton.mp last
          cases other

end TakenAfter

theorem Environment.settings_eq (e : Environment) :
    e.settings = (e.taken.getD (.ofVariables e.vars), { e with taken := some (e.taken.getD (.ofVariables e.vars)) }) := by
  obtain ⟨vars, taken⟩ := e
  cases taken <;> rfl

/-- An environment after calls: the variables as they are now, and the settings as they were taken last. -/
structure Environment.Recalls (start : ProcessValues) (past : List EnvironmentCall) (e : Environment) : Prop where
  vars : e.vars = .ofValues (valuesAfter start past)
  taken : ∀ before, TakenAfter past before → e.taken = some (.ofValues (valuesAfter start before))
  untaken : (∀ call ∈ past, call.isChange = true) → e.taken = none

namespace Environment.Recalls

variable {start : ProcessValues} {past before : List EnvironmentCall} {e : Environment}

theorem fresh (start : ProcessValues) : (Environment.fresh start).Recalls start [] where
  vars := rfl
  taken := by
    intro before h
    generalize all : ([] : List EnvironmentCall) = calls at h
    cases h <;> simp at all
  untaken _ := rfl

/-- A setting that is asked for is the one taken last, also when that happens only now. -/
theorem settings (h : e.Recalls start past) {setting : Variable} (taken : TakenAfter (past ++ [.read setting]) before) :
    e.settings.1 = .ofValues (valuesAfter start before) := by
  rw [Environment.settings_eq]
  rcases taken.of_concat with ⟨init, -⟩ | ⟨-, earlier⟩ | ⟨-, rfl, changes⟩
  · cases init
  · rw [h.taken before earlier]
    rfl
  · rw [h.untaken changes, h.vars]
    rfl

theorem answer (h : e.Recalls start past) (call : EnvironmentCall) :
    (e.answer call).2.Recalls start (past ++ [call]) := by
  have values : valuesAfter start (past ++ [call]) = call.values (valuesAfter start past) := by
    rw [valuesAfter, List.foldl_append]
    rfl
  cases call with
  | change v value =>
    constructor
    case vars =>
      rw [values, Environment.answer, h.vars]
      cases v <;> rfl
    case taken =>
      intro before taken
      rcases taken.of_concat with ⟨init, -⟩ | ⟨-, earlier⟩ | ⟨⟨setting, read⟩, -⟩
      · cases init
      · exact h.taken before earlier
      · cases read
    case untaken =>
      intro changes
      exact h.untaken fun call mem => changes call (List.mem_append_left _ mem)
  | init =>
    constructor
    case vars => rw [values]; exact h.vars
    case taken =>
      intro before taken
      rcases taken.of_concat with ⟨-, rfl⟩ | ⟨other, -⟩ | ⟨⟨setting, read⟩, -⟩
      · exact congrArg (some ∘ Settings.ofVariables) h.vars
      · exact absurd rfl other
      · cases read
    case untaken =>
      intro changes
      cases changes .init (by simp)
  | read setting =>
    have next : (e.answer (.read setting)).2 = { e with taken := some e.settings.1 } := by
      rw [Environment.answer, Environment.settings_eq]
    rw [next]
    constructor
    case vars => rw [values]; exact h.vars
    case taken =>
      intro before taken
      exact congrArg some (h.settings taken)
    case untaken =>
      intro changes
      cases changes (.read setting) (by simp)

theorem serve (start : ProcessValues) (calls : List EnvironmentCall) :
    ((Environment.fresh start).serve calls).2.Recalls start calls :=
  exchange_preserves Environment.answer (Environment.fresh start) (P := fun past e => e.Recalls start past)
    (fresh start) (fun _ _ call h => h.answer call) calls

end Environment.Recalls

theorem Environment.reading_of_taken (start : ProcessValues) {past before : List EnvironmentCall} {setting : Variable}
    (taken : TakenAfter (past ++ [.read setting]) before) :
    ∃ s : Settings, s.AskedBy (valuesAfter start before) ∧ ∀ later,
      ((Environment.fresh start).serve (past ++ .read setting :: later)).1[past.length]? =
        some (some (s.reading setting)) := by
  refine ⟨.ofValues (valuesAfter start before), Settings.ofValues_asked _, fun later => ?_⟩
  rw [Environment.serve, getElem?_exchange, ← (Recalls.serve start past).settings taken]
  rfl

/-- Every reading answers from what both variables held when the settings were last taken, which for a first reading
without `init` is that moment. What changes later is not seen until the next `init`. -/
theorem Environment.readings_of_one_snapshot (start : ProcessValues) (past : List EnvironmentCall) (setting : Variable) :
    (∃ before, TakenAfter (past ++ [.read setting]) before) ∧
      (∀ before, TakenAfter (past ++ [.read setting]) before →
        ∃ s : Settings, s.AskedBy (valuesAfter start before) ∧ ∀ later,
          ((Environment.fresh start).serve (past ++ .read setting :: later)).1[past.length]? =
            some (some (s.reading setting))) ∧
      ∀ before more, TakenAfter past before → .init ∉ more →
        ∃ s : Settings, s.AskedBy (valuesAfter start before) ∧ ∀ later,
          ((Environment.fresh start).serve (past ++ more ++ .read setting :: later)).1[(past ++ more).length]? =
            some (some (s.reading setting)) := by
  refine ⟨TakenAfter.exists_of_not_change ⟨.read setting, by simp, rfl⟩, ?_, ?_⟩
  · intro before taken
    exact Environment.reading_of_taken start taken
  · intro before more taken quiet
    exact Environment.reading_of_taken start ((taken.append quiet).append (by simp))

/-- A limit with blanks and a plus is taken with a trace that was not asked for, and both last until the next `init`. -/
theorem Environment.readings_of_one_snapshot_changed :
    let past : List EnvironmentCall := [.change .limit (some (utf8Bytes " +7\t")), .read .trace,
      .change .limit none, .change .trace (some (utf8Bytes "1"))]
    TakenAfter (past ++ [.read .limit]) (past.take 1) ∧ TakenAfter past (past.take 1) ∧ .init ∉ [EnvironmentCall.read .limit] ∧
      ((Environment.fresh fun _ => none).serve (past ++ [.read .limit])).1[4]? = some (some (.limit (some 7))) ∧
      ((Environment.fresh fun _ => none).serve (past ++ [.read .limit] ++ [.read .trace])).1[5]? =
        some (some (.trace false)) := by
  intro past
  have changes : ∀ call ∈ past.take 1, call.isChange = true := by decide
  have before : TakenAfter past (past.take 1) := .read changes .trace (by decide)
  have first : TakenAfter (past ++ [.read .limit]) (past.take 1) := before.append (by decide)
  have quiet : .init ∉ [EnvironmentCall.read .limit] := by decide
  obtain ⟨-, readings, -⟩ := Environment.readings_of_one_snapshot (fun _ => none) past .limit
  obtain ⟨s, asked, limit⟩ := readings _ first
  obtain ⟨-, -, lasting⟩ := Environment.readings_of_one_snapshot (fun _ => none) past .trace
  obtain ⟨s', asked', trace⟩ := lasting _ [.read .limit] before quiet
  have trimmed : Trims " +7\t".toList ['+', '7'] := by
    refine .around [' '] ['+', '7'] ['\t'] (List.forall_mem_singleton.mpr (by decide))
      (List.forall_mem_singleton.mpr (by decide)) ?_ ?_ <;>
    · rintro c ⟨⟩
      decide
  have spelt : Numeral.Unsigned ['+', '7'] 7 := ⟨['7'], .inr rfl, ⟨[7], by decide, by decide, rfl, rfl⟩, by decide⟩
  have seven : s.limit = some 7 := (asked.limit 7).mpr ⟨" +7\t", _, rfl, trimmed, spelt⟩
  have off : s'.trace = false := by
    rw [← Bool.not_eq_true, asked'.trace]
    decide
  exact ⟨first, before, quiet, seven ▸ limit [], off ▸ trace []⟩

end I8080
