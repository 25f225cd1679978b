import I8080.Assembly
import I8080.Instr.Text
import I8080.Text.Format
import I8080.Text.Escape

namespace I8080

/-- The line of a listing for one instruction: source line, address, bytes, text. -/
def Assembly.entryLine (a : Assembly) (entry : Entry) : String :=
  let text := match a.instr? entry with
    | some i => i.toText
    | none => "???"
  dim (Column.right 4 (toString entry.line)) ++ "  " ++ hexWord (addressOf entry.offset) ++ "  " ++
    Column.left 8 (Hex.row (a.bytes entry)) ++ "  " ++ text ++ "\n"

def labelLine (name : String) (address : UInt16) : String :=
  "  " ++ Column.left 12 name ++ "  " ++ hexWord address ++ "\n"

/-- The pieces of a listing: the instructions by address, then the labels if there are any. -/
def Assembly.listingPieces (a : Assembly) : List String :=
  let labels :=
    if a.labels.isEmpty then []
    else ("\n" ++ bold "labels" ++ " (" ++ toString a.labels.size ++ ")\n") ::
      a.labels.toList.map fun (name, address) => labelLine name address
  a.listing.map a.entryLine ++ labels

end I8080
