import I8080.Text.Painter

namespace I8080

/-- Where printed text goes: results on standard output, a trace on standard error. -/
inductive Channel where
  | results
  | trace
  deriving DecidableEq

/-- How to print: `minimal` drops escape sequences, and the painter adds those that the terminal is to decide on. -/
structure Printer where
  channel : Channel := .results
  minimal : Bool := false
  painter : Painter := .plain

/-- One printed piece as it leaves the program. -/
def Printer.render (p : Printer) (piece : String) : String :=
  if p.minimal then Escape.strip piece
  else if p.channel = .trace then p.painter.paint .trace piece
  else piece

def Printer.print (p : Printer) (pieces : List String) : String :=
  String.join (pieces.map p.render)

end I8080
