import I8080.Command

namespace I8080

def fileError : IO.Error → FileError
  | .noFileOrDirectory .. => .notFound
  | e => .other (toString e)

def readBytes (p : Path) : IO (Except FileError (List UInt8)) := do
  try
    return .ok (← IO.FS.readBinFile p.text).data.toList
  catch e => return .error (fileError e)

def Event.play : Event → IO Unit
  | .print .results text => IO.print text
  | .print .trace text => IO.eprint text
  | .report d => IO.eprintln d.text
  | .save p bytes => IO.FS.writeBinFile p.text ⟨bytes.toArray⟩

/-- Plays a command line. Whether a file can be written shows only when it is written. -/
def playCommand (words : List String) : IO Verdict := do
  let vars : Variables := ⟨← IO.getEnv "SIM80_TRACE", ← IO.getEnv "SIM80_STEP_LIMIT"⟩
  let bytes ← match (Request.parse words).toOption.bind Request.source? with
    | some p => readBytes p
    | none => pure (.error .notFound)
  let color ← (← IO.getStdout).isTty
  let transcript := command words vars { read := fun _ => bytes, accept := fun _ => .ok () } color
  try
    transcript.events.forM Event.play
    return transcript.verdict
  catch e => return .failure (fileError e).message

end I8080

open I8080

def main (words : List String) : IO UInt32 := do
  let verdict ← playCommand words
  match verdict with
  | .failure message => IO.eprintln ("Error: " ++ message)
  | .misuse => IO.eprint helpText
  | .success => pure ()
  return UInt32.ofNat verdict.exitCode
