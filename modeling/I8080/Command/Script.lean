import I8080.Command.Files
import I8080.Diagnostic
import I8080.Display.Printer

namespace I8080

/-- What a command does that can be seen from outside. -/
inductive Event where
  | print (channel : Channel) (text : String)
  | report (d : Diagnostic)
  | save (p : Path) (bytes : List UInt8)
  deriving DecidableEq

/-- A stretch of a command: what it does, in order, and what comes of it. A failure ends the command with
a message. -/
structure Script (α : Type) where
  events : List Event
  result : Except String α

instance : Monad Script where
  pure a := ⟨[], .ok a⟩
  bind s f :=
    match s.result with
    | .error message => ⟨s.events, .error message⟩
    | .ok a =>
      let rest := f a
      ⟨s.events ++ rest.events, rest.result⟩

def Script.perform (events : List Event) : Script Unit :=
  ⟨events, .ok ()⟩

def Script.fail {α : Type} (message : String) : Script α :=
  ⟨[], .error message⟩

def Script.print (printer : Printer) (pieces : List String) : Script Unit :=
  .perform (pieces.map fun piece => .print printer.channel (printer.render piece))

/-- A line that tells what a command is doing. Its first column is in colour. -/
def statusLine (painter : Painter) (style : Style) (what about : String) : String :=
  painter.paint style (Column.right 12 what) ++ " " ++ about ++ "\n"

def Script.tell (painter : Painter) (style : Style) (what about : String) : Script Unit :=
  .perform [.print .results (statusLine painter style what about)]

def Script.tellTarget (painter : Painter) (what : String) (p : Path) : Script Unit :=
  .tell painter .status what ("target " ++ p.text)

def Script.ofFile {α : Type} : Except FileError α → Script α
  | .ok a => pure a
  | .error e => .fail e.message

end I8080
