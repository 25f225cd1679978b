import I8080.Command.Request
import I8080.Command.Screen
import I8080.Command.Script
import I8080.Display.Listing
import I8080.Display.Registers
import I8080.Display.Stack
import I8080.Display.Trace
import I8080.Machine.Run
import I8080.Settings

namespace I8080

/-- Assembles a file, and fails with all its diagnostics if it has any. -/
def assembleFile (files : Files) (p : Path) : Script Assembly := do
  let a := assemble (← .ofFile (files.readText p))
  if a.isOk then return a
  .perform (a.diagnostics.map .report)
  let plural := if a.diagnostics.length = 1 then "" else "s"
  .fail ("Aborting due to " ++ toString a.diagnostics.length ++ " assembly error" ++ plural)

/-- The image in a file: as it is in a binary file, assembled from a source file. -/
def imageOfFile (files : Files) (p : Path) : Script Image :=
  match p.extension? with
  | some "bin" => do
    let bytes ← .ofFile (files.read p)
    match Image.ofBytes? bytes with
    | some image => return image
    | none =>
      .fail ("Binary file is " ++ toString bytes.length ++ " bytes, larger than the " ++
        toString windowSize ++ " byte memory")
  | some "asm" => return (← assembleFile files p).image
  | some _ => .fail "File has unknown extension. Exiting..."
  | none => .fail "File has no extension. Exiting..."

section Painted

variable (painter : Painter)

/-- Runs a file and shows the machine as the run leaves it. A limit on the command line wins over one in
the environment. -/
def runFile (files : Files) (settings : Settings) (p : Path) (options : RunOptions) : Script Unit := do
  .tellTarget painter "Assembling" p
  let image ← imageOfFile files p
  .tell painter .status "Running" "assembled program"
  let printer : Printer := { minimal := options.minimal, painter }
  let limit := (options.steps <|> settings.limit).getD defaultLimit
  let run := (Machine.ofImage image).run limit
  if options.trace || settings.trace then
    .print { printer with channel := .trace } run.traceLines
  .print printer (printer.registerPieces run.machine)
  match run.ending with
  | .halted =>
    .print printer (printer.stackPieces run.machine)
    .tellTarget painter "Completed" p
  | .limit => .fail ("Program did not halt within " ++ toString limit ++ " steps")
  | .fault f => .fail f.message

/-- Writes the image of a source file to `dest`, or beside it. -/
def compileFile (files : Files) (p : Path) (dest : Option Path) : Script Unit := do
  .tellTarget painter "Assembling" p
  let a ← assembleFile files p
  let dest := dest.getD (p.withExtension "bin")
  .ofFile (files.accept dest)
  .perform [.save dest a.image.toList]
  .tell painter .status "Finished" "emit binary"
  .tellTarget painter "Saved" dest

def checkFile (files : Files) (p : Path) : Script Unit := do
  .tellTarget painter "Checking" p
  let _ ← assembleFile files p
  .tell painter .status "Success" "no errors found!"

def dumpFile (files : Files) (p : Path) : Script Unit := do
  .tellTarget painter "Assembling" p
  let a ← assembleFile files p
  .print { painter } a.listingPieces

/-- Opens the screen on which a file would be watched. -/
def watchFile (files : Files) (p : Path) : Script Unit := do
  if !files.exists p then .fail "File does not exist. Exiting..."
  .perform [.print .results "\x1b[2J\x1b[2;1H"]
  .tellTarget painter "Watching" p
  .tell painter .help "Help" "press CTRL+C to exit"

def Request.script (files : Files) (settings : Settings) : Request → Script Unit
  | .banner => .perform [.print .results (bannerText painter)]
  | .run p options => runFile painter files settings p options
  | .compile p dest => compileFile painter files p dest
  | .check p => checkFile painter files p
  | .dump p => dumpFile painter files p
  | .watch p => watchFile painter files p

end Painted

inductive Verdict where
  | success
  | failure (message : String)
  | misuse
  deriving DecidableEq

def Verdict.exitCode : Verdict → Nat
  | .success => 0
  | .failure _ => 1
  | .misuse => 2

/-- All that can be seen of a command. -/
structure Transcript where
  events : List Event
  verdict : Verdict
  deriving DecidableEq

def Script.transcript (s : Script Unit) : Transcript where
  events := s.events
  verdict := match s.result with
    | .ok () => .success
    | .error message => .failure message

/-- What comes of a command line. -/
def command (words : List String) (vars : Variables) (files : Files) (painter : Painter := .plain) : Transcript :=
  match Request.parse words with
  | .ok request => (request.script painter files (.ofVariables vars)).transcript
  | .error .help => ⟨[.print .results helpText], .success⟩
  | .error .version => ⟨[.print .results ("sim80 " ++ versionText ++ "\n")], .success⟩
  | .error .misuse => ⟨[], .misuse⟩

end I8080
