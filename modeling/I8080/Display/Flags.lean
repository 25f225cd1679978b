import I8080.Display.Printer
import I8080.Flags

namespace I8080

def Flags.named (f : Flags) : List (String × Bool) :=
  [("S", f.sign), ("Z", f.zero), ("AC", f.aux), ("P", f.parity), ("C", f.carry)]

def Flags.minimalLine (f : Flags) : String :=
  let cell := fun (name, set) => String.toLower name ++ (if set then "=1" else "=0")
  "FLAGS " ++ " ".intercalate (f.named.map cell) ++ "\n"

/-- A set flag stands out by colour where there is colour; a flag that is not set is dim. -/
def flagCell (painter : Painter) (name : String) (set : Bool) : String :=
  " " ++ if set then painter.paint .flag name else dim name

def Printer.flagPieces (p : Printer) (f : Flags) : List String :=
  if p.minimal then [f.minimalLine]
  else
    [" " ++ bold "flags" ++ " "] ++ f.named.map (fun (name, set) => flagCell p.painter name set) ++ ["\n"]

end I8080
