import I8080.Command.Arguments
import I8080.Command.Path

namespace I8080

/-- The words that begin a command. -/
inductive Verb where
  | run
  | compile
  | check
  | dump
  | watch
  | help
  deriving DecidableEq

def Verb.all : List Verb :=
  [.run, .compile, .check, .dump, .watch, .help]

def Verb.word : Verb → String
  | .run => "run"
  | .compile => "compile"
  | .check => "check"
  | .dump => "dump"
  | .watch => "watch"
  | .help => "help"

def Verb.ofWord? (word : String) : Option Verb :=
  Verb.all.find? fun verb => verb.word == word

def Verb.usage : Verb → Usage
  | .run => ⟨[.minimal, .trace, .steps, .help], 1⟩
  | .compile => ⟨[.help], 2⟩
  | _ => ⟨[.help], 1⟩

structure RunOptions where
  minimal : Bool := false
  trace : Bool := false
  steps : Option Nat := none
  deriving DecidableEq

/-- What a command line asks for. -/
inductive Request where
  | banner
  | run (p : Path) (options : RunOptions)
  | compile (p : Path) (dest : Option Path)
  | check (p : Path)
  | dump (p : Path)
  | watch (p : Path)
  deriving DecidableEq

/-- The file that a request begins with. -/
def Request.source? : Request → Option Path
  | .banner => none
  | .run p _ | .compile p _ | .check p | .dump p | .watch p => some p

/-- Help can be had on one command or on all. -/
def Verb.helpOn : List String → Interruption
  | [] => .help
  | [word] => if (Verb.ofWord? word).isSome then .help else .misuse
  | _ => .misuse

def Verb.request (verb : Verb) (words : List String) : Except Interruption Request :=
  if verb = .help then .error (Verb.helpOn words)
  else do
    let a ← Arguments.read verb.usage {} words
    match verb, a.operands with
    | .run, [p] => return .run ⟨p⟩ ⟨a.minimal, a.trace, a.steps⟩
    | .compile, [p] => return .compile ⟨p⟩ none
    | .compile, [p, dest] => return .compile ⟨p⟩ (some ⟨dest⟩)
    | .check, [p] => return .check ⟨p⟩
    | .dump, [p] => return .dump ⟨p⟩
    | .watch, [p] => return .watch ⟨p⟩
    | _, _ => throw .misuse

/-- Reads a command line. A file alone is run; one that stands before a command is passed over. -/
def Request.parse (words : List String) : Except Interruption Request := do
  let usage : Usage := ⟨[.help, .version], 1⟩
  let before := words.takeWhile fun word => word ≠ "--" && (Verb.ofWord? word).isNone
  match words.drop before.length with
  | [] | "--" :: _ =>
    match (← Arguments.read usage {} words).operands with
    | p :: _ => return .run ⟨p⟩ {}
    | [] => return .banner
  | word :: rest =>
    let _ ← Arguments.read usage {} before
    match Verb.ofWord? word with
    | some verb => verb.request rest
    | none => throw .misuse

end I8080
