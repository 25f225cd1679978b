import I8080.Assembly.Pass

namespace I8080

/-- What assembling a source text gives: the image, the diagnostics by line, the instructions by address
and the labels. -/
structure Assembly where
  image : Image
  diagnostics : List Diagnostic
  listing : List Entry
  labels : LabelTable

/-- Assembles a source text in two passes. It never fails as a whole: a line that does emits nothing. -/
def assemble (source : String) : Assembly :=
  let first := (sourceLines source.toList).foldl Pass.line {}
  let last := first.fixups.foldl Pass.resolve first
  { image := last.image
    diagnostics := last.diagnostics.toList.mergeSort fun d e => d.line ≤ e.line
    listing := last.listing.toList
    labels := last.labels }

def Assembly.isOk (a : Assembly) : Bool :=
  a.diagnostics.isEmpty

/-- Bytes taken by instructions, from the start of the window. -/
def Assembly.size (a : Assembly) : Nat :=
  match a.listing.getLast? with
  | some entry => entry.offset + entry.size
  | none => 0

/-- The bytes that the image holds for a listing entry. -/
def Assembly.bytes (a : Assembly) (entry : Entry) : List UInt8 :=
  a.image.slice entry.offset entry.size

/-- The instruction that the image holds for a listing entry; past the end of the image stand zeros. -/
def Assembly.instr? (a : Assembly) (entry : Entry) : Option Instr :=
  let byte := fun i => a.image[entry.offset + i]?.getD 0
  Instr.decode (byte 0) (byte 1) (byte 2)

end I8080
