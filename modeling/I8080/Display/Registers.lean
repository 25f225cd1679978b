import I8080.Display.Flags
import I8080.Machine
import I8080.Text.Format

namespace I8080

/-- A byte as text, three columns wide: control characters in caret notation, dots above ASCII. -/
def charCell (b : UInt8) : String :=
  if b < 0x20 then "^" ++ String.singleton (Char.ofNat (b.toNat + 0x40)) ++ " "
  else if b = 0x20 then "SP "
  else if b < 0x7F then Column.left 3 (String.singleton (Char.ofNat b.toNat))
  else if b = 0x7F then "^? "
  else dim "···"

/-- A byte in hexadecimal, as an unsigned and as a signed number, and as text. -/
def bytePieces (b : UInt8) : List String :=
  [hexByte b ++ "  " ++ Column.right 6 (toString b.toNat) ++ "  " ++
    Column.right 6 (toString b.toInt8.toInt) ++ "     ", charCell b]

def Register.title (r : Register) : String :=
  r.name.toUpper

def boxRow (inside : List String) : List String :=
  [dim "│"] ++ inside ++ [" " ++ dim "│" ++ "\n"]

def addressCell (title : String) (address : UInt16) : String :=
  " " ++ bold title ++ "  " ++ hexWord address

def Machine.registerBox (m : Machine) : List String :=
  let row := fun r : Register =>
    boxRow ((" " ++ bold r.title ++ "    ") :: bytePieces (m.registers.get r))
  let pointers := [addressCell "PC" (addressOf m.pc), "             ", addressCell "SP" (m.pair .sp)]
  [dim "┌────────────────────────────────────┐" ++ "\n",
    "\x1b[2m│        \x1b[3mhex    uint     int    char\x1b[0m\x1b[2m │\x1b[0m\n"] ++
    Register.all.flatMap row ++ boxRow pointers ++
    [dim "└────────────────────────────────────┘" ++ "\n"]

def Machine.registerLines (m : Machine) : List String :=
  Register.all.map (fun r => r.title ++ " " ++ toString (m.registers.get r).toNat ++ "\n") ++
    ["PC " ++ hexWord (addressOf m.pc) ++ "\n", "SP " ++ hexWord (m.pair .sp) ++ "\n"]

/-- The pieces of a machine's registers and flags. -/
def Printer.registerPieces (p : Printer) (m : Machine) : List String :=
  (if p.minimal then m.registerLines else m.registerBox) ++ p.flagPieces m.flags

end I8080
