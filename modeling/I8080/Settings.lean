import I8080.Text.Numeral

namespace I8080

/-- The two variables of the process environment that the program looks at. -/
structure Variables where
  trace : Option String := none
  limit : Option String := none
  deriving DecidableEq

/-- What the variables ask for: a trace, and a limit on the steps of a run. -/
structure Settings where
  trace : Bool
  limit : Option Nat
  deriving DecidableEq

/-- Steps after which a run gives up where nothing else is asked for. -/
def defaultLimit : Nat := 100000

/-- A trace is asked for by `1` alone. A limit that is not a number counts as none. -/
def Settings.ofVariables (v : Variables) : Settings where
  trace := v.trace = some "1"
  limit := v.limit.bind fun s => Numeral.unsigned? (trimBlank s.toList)

/-- A process environment with the settings that were taken from it. -/
structure Environment where
  vars : Variables := {}
  taken : Option Settings := none
  deriving DecidableEq

/-- Takes the settings anew. -/
def Environment.init (e : Environment) : Environment :=
  { e with taken := some (.ofVariables e.vars) }

/-- The settings as last taken, or taken now if never before. Later changes of the variables do not show. -/
def Environment.settings (e : Environment) : Settings × Environment :=
  match e.taken with
  | some s => (s, e)
  | none =>
    let s := Settings.ofVariables e.vars
    (s, { e with taken := some s })

end I8080
