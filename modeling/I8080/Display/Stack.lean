import I8080.Display.Printer
import I8080.Machine.Stack

namespace I8080

/-- The bytes of a machine's stack and their addresses, its last byte first. -/
def Machine.stackCells (m : Machine) : List (UInt16 × UInt8) :=
  (m.stack.zipIdx m.sp).map fun (b, offset) => (addressOf offset, b)

def Machine.minimalStack (m : Machine) : String :=
  " ".intercalate ("STACK" :: m.stack.map Hex.byte) ++ "\n"

def stackCell (address : UInt16) (b : UInt8) : String :=
  "   " ++ dim (hexWord address) ++ "  " ++ hexByte b ++ "\n"

def Machine.stackBox (m : Machine) : List String :=
  if m.stack.isEmpty then [" " ++ bold "stack" ++ "  " ++ dim "empty" ++ "\n"]
  else (" " ++ bold "stack" ++ "\n") :: m.stackCells.map fun (address, b) => stackCell address b

/-- The pieces of a machine's stack. -/
def Printer.stackPieces (p : Printer) (m : Machine) : List String :=
  if p.minimal then [m.minimalStack] else m.stackBox

theorem Machine.length_stackCells (m : Machine) : m.stackCells.length = windowSize - m.sp := by
  simp [Machine.stackCells, Machine.stack]

theorem Machine.getElem_stackCells (m : Machine) (k : Nat) (inside : k < m.stackCells.length) :
    m.stackCells[k] = (addressOf (m.sp + k), m.memory.wrapped (m.sp + k)) := by
  have below : m.sp + k < windowSize := by
    rw [m.length_stackCells] at inside
    omega
  simp [Machine.stackCells, Machine.stack, Image.wrapped, Offset.wrap, Nat.mod_eq_of_lt below]

end I8080
