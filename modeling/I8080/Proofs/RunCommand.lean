import I8080.Command
import I8080.Proofs.Conclusion
import I8080.Proofs.Image
import I8080.Proofs.Readout

namespace I8080

theorem Machine.free_traceText (m : Machine) (i : Instr) : Escape.Free (m.traceText i) := by
  simp only [Machine.traceText, Escape.free_append, Escape.free_hexWord, i.free_toText,
    Escape.free_column (Escape.free_row _), and_true, true_and]
  decide

theorem Machine.Traces.free {m : Machine} {lines : List String} (traces : m.Traces lines) :
    ∀ line ∈ lines, Escape.Free line := by
  intro line mem
  obtain ⟨k, hk⟩ := List.mem_iff_getElem?.mp mem
  obtain ⟨s, i, -, -, rfl⟩ := traces k line hk
  exact s.free_traceText i

/-- A trace line as it is printed: painted, unless printing is minimal. -/
def paintedLine (painter : Painter) (minimal : Bool) (line : String) : String :=
  if minimal then line else painter.paint .trace line

theorem Machine.Traces.render {m : Machine} {lines : List String} (traces : m.Traces lines) (painter : Painter)
    (minimal : Bool) :
    lines.map (Printer.render { channel := .trace, minimal, painter }) = lines.map (paintedLine painter minimal) := by
  refine List.map_congr_left fun line mem => ?_
  cases minimal with
  | true => exact Escape.strip_of_free (traces.free line mem)
  | false => rfl

theorem Machine.Traces.shows {m : Machine} {lines : List String} (traces : m.Traces lines) (painter : Painter)
    (minimal : Bool) : List.Forall₂ Escape.Shows (lines.map (paintedLine painter minimal)) lines := by
  rw [List.forall₂_map_left_iff, List.forall₂_same]
  intro line mem
  have plain := Escape.shows_of_free (traces.free line mem)
  cases minimal with
  | true => exact plain
  | false => exact painter.shows .trace line line plain

/-- A script that does nothing to be seen unless it fails. -/
def Script.Silent {α : Type} (s : Script α) : Prop :=
  ∀ a, s.result = .ok a → s.events = []

theorem Script.silent_pure {α : Type} (a : α) : Script.Silent (pure a) := fun _ _ => rfl

theorem Script.silent_fail {α : Type} (message : String) : Script.Silent (α := α) (.fail message) := fun _ _ => rfl

theorem Script.silent_ofFile {α : Type} (x : Except FileError α) : Script.Silent (.ofFile x) := by
  cases x <;> exact fun _ _ => rfl

theorem Script.Silent.bind {α β : Type} {s : Script α} {f : α → Script β} (first : s.Silent)
    (rest : ∀ a, (f a).Silent) : (s >>= f).Silent := by
  obtain ⟨events, result⟩ := s
  cases result with
  | error message => exact fun b h => nomatch h
  | ok a =>
    intro b h
    have none : events = [] := first a rfl
    subst none
    exact rest a b h

theorem assembleFile_silent (files : Files) (p : Path) : (assembleFile files p).Silent := by
  refine (Script.silent_ofFile _).bind fun source => ?_
  dsimp only
  split
  next => exact Script.silent_pure _
  next => exact fun a h => nomatch h

theorem imageOfFile_silent (files : Files) (p : Path) : (imageOfFile files p).Silent := by
  unfold imageOfFile
  split
  next =>
    refine (Script.silent_ofFile _).bind fun bytes => ?_
    split
    next => exact Script.silent_pure _
    next => exact Script.silent_fail _
  next => exact (assembleFile_silent files p).bind fun a => Script.silent_pure a.image
  next => exact Script.silent_fail _
  next => exact Script.silent_fail _

theorem imageOfFile_eq {files : Files} {p : Path} {image : Image}
    (loaded : (imageOfFile files p).result = .ok image) : imageOfFile files p = pure image := by
  have silent := imageOfFile_silent files p image loaded
  cases h : imageOfFile files p
  simp_all [pure]

theorem imageOfFile_of_bytes {files : Files} {p : Path} {bytes : List UInt8} {image : Image}
    (binary : p.extension? = some "bin") (contents : files.read p = .ok bytes)
    (fits : Image.ofBytes? bytes = some image) : (imageOfFile files p).result = .ok image := by
  unfold imageOfFile
  rw [binary, contents]
  simp [bind, Script.ofFile, pure, fits]

theorem imageOfFile_of_binary {files : Files} {p : Path} {image : Image} (binary : p.extension? = some "bin")
    (contents : files.read p = .ok image.toList) : (imageOfFile files p).result = .ok image :=
  imageOfFile_of_bytes binary contents (@Image.ofBytes?_of_append_zeros _ 0 _ (List.append_nil _))

/-- The limit of a run: that of the command line, or else that of the environment. -/
def RunOptions.limit (options : RunOptions) (settings : Settings) : Nat :=
  (options.steps <|> settings.limit).getD defaultLimit

/-- What can be seen of a run that ends at a machine, with these lines as its trace. -/
def runTranscript (painter : Painter) (p : Path) (options : RunOptions) (settings : Settings) (lines : List String)
    (s : Machine) (ending : Ending) : Transcript :=
  let printer : Printer := { minimal := options.minimal, painter }
  let shows (pieces : List String) : List Event := pieces.map fun piece => .print .results (printer.render piece)
  let opening := (Script.tellTarget painter "Assembling" p).events ++
    (Script.tell painter .status "Running" "assembled program").events
  let trace :=
    if options.trace || settings.trace then
      lines.map fun line => .print .trace (paintedLine painter options.minimal line)
    else []
  let shown := opening ++ trace ++ shows (printer.registerPieces s)
  match ending with
  | .halted =>
    ⟨shown ++ shows (printer.stackPieces s) ++ (Script.tellTarget painter "Completed" p).events, .success⟩
  | .fault f => ⟨shown, .failure f.message⟩
  | .limit => ⟨shown, .failure ("Program did not halt within " ++ toString (options.limit settings) ++ " steps")⟩

/-- The text that an event prints on a channel. -/
def Event.text? (channel : Channel) : Event → Option String
  | .print place text => if place = channel then some text else none
  | _ => none

@[simp] theorem Event.text?_print (channel place : Channel) (text : String) :
    (Event.print place text).text? channel = if place = channel then some text else none := rfl

@[simp] theorem Event.filterMap_text?_map {α : Type} (channel place : Channel) (f : α → String) (items : List α) :
    (items.map fun item => Event.print place (f item)).filterMap (Event.text? channel) =
      if place = channel then items.map f else [] := by
  split
  next same => simp [List.filterMap_map, Function.comp_def, same]
  next other => simp [List.filterMap_map, Function.comp_def, other]

/-- The texts that a command prints on a channel, in order. -/
def Transcript.printed (t : Transcript) (channel : Channel) : List String :=
  t.events.filterMap (Event.text? channel)

@[simp] theorem Script.events_perform (events : List Event) : (Script.perform events).events = events := rfl

@[simp] theorem Script.transcript_done (events : List Event) :
    (Script.perform events).transcript = ⟨events, .success⟩ := rfl

@[simp] theorem Script.transcript_fail (message : String) :
    (Script.fail message).transcript = ⟨[], .failure message⟩ := rfl

@[simp] theorem Script.transcript_perform (events : List Event) (rest : Script Unit) :
    (Script.perform events >>= fun _ => rest).transcript =
      ⟨events ++ rest.transcript.events, rest.transcript.verdict⟩ := rfl

@[simp] theorem Script.pure_bind {α β : Type} (a : α) (f : α → Script β) : (pure a >>= f) = f a := rfl

section Painted

variable (painter : Painter)

theorem runFile_transcript {files : Files} {p : Path} {image : Image} {settings : Settings} {options : RunOptions}
    {run : Run} (loaded : (imageOfFile files p).result = .ok image)
    (ran : (Machine.ofImage image).run (options.limit settings) = run) :
    (runFile painter files settings p options).transcript =
      runTranscript painter p options settings run.traceLines run.machine run.ending := by
  have traces := ((Machine.ofImage image).run_concludes (options.limit settings)).2
  rw [ran] at traces
  have traced : Script.print { channel := .trace, minimal := options.minimal, painter } run.traceLines =
      .perform (run.traceLines.map fun line => .print .trace (paintedLine painter options.minimal line)) := by
    have texts := congrArg (List.map (Event.print .trace)) (traces.render painter options.minimal)
    rw [List.map_map, List.map_map] at texts
    exact congrArg Script.perform texts
  have limit : (options.steps <|> settings.limit).getD defaultLimit = options.limit settings := rfl
  simp only [runFile, imageOfFile_eq loaded, Script.pure_bind, limit, ran, traced]
  unfold runTranscript
  cases options.trace || settings.trace with
  | false => cases run.ending <;> simp [Script.tellTarget, Script.tell, Script.print]
  | true => cases run.ending <;> simp [Script.tellTarget, Script.tell, Script.print]

/-- On the results channel stand what the command is doing, the machine, and after a halt its stack. -/
theorem printed_runTranscript (p : Path) (options : RunOptions) (settings : Settings) (lines : List String)
    (s : Machine) (ending : Ending) :
    let printer : Printer := { minimal := options.minimal, painter }
    let status (what about : String) := statusLine painter .status what about
    let transcript := runTranscript painter p options settings lines s ending
    transcript.printed .results =
        [status "Assembling" ("target " ++ p.text), status "Running" "assembled program"] ++
          (printer.registerPieces s).map printer.render ++
          (if ending = .halted then
            (printer.stackPieces s).map printer.render ++ [status "Completed" ("target " ++ p.text)]
          else []) ∧
      transcript.printed .trace =
        if options.trace || settings.trace then lines.map (paintedLine painter options.minimal) else [] := by
  intro printer status transcript
  unfold transcript runTranscript Transcript.printed Script.tellTarget Script.tell
  cases options.trace || settings.trace with
  | false => cases ending <;> simp [-List.filterMap_map, status, printer]
  | true => cases ending <;> simp [-List.filterMap_map, status, printer]

/-- The run command steps the loaded machine until it halts, fails or comes to its limit, whichever is first,
and shows the machine as it is then. -/
theorem runFile_concludes (files : Files) (settings : Settings) (p : Path) (options : RunOptions) (image : Image)
    (loaded : (imageOfFile files p).result = .ok image) :
    let start := Machine.ofImage image
    let limit := options.limit settings
    let status (what about : String) := statusLine painter .status what about
    let transcript := (runFile painter files settings p options).transcript
    (∃ k s ending lines, start.Concludes limit k s ending ∧ lines.length = k ∧ start.Traces lines ∧
        transcript = runTranscript painter p options settings lines s ending ∧
        transcript.verdict.exitCode = (if ending = .halted then 0 else 1) ∧
        (∃ values stack, s.PrintedAs painter options.minimal values stack ∧
          transcript.printed .results =
            [status "Assembling" ("target " ++ p.text), status "Running" "assembled program"] ++ values ++
              if ending = .halted then stack ++ [status "Completed" ("target " ++ p.text)] else []) ∧
        List.Forall₂ Escape.Shows (transcript.printed .trace)
          (if options.trace || settings.trace then lines else [])) ∧
      (start.OverWithin limit → ∀ more, limit ≤ more →
        (runFile painter files settings p { options with steps := some more }).transcript = transcript) := by
  intro start limit status transcript
  obtain ⟨concludes, traces⟩ := start.run_concludes limit
  let run := start.run limit
  have shown : transcript = runTranscript painter p options settings run.traceLines run.machine run.ending :=
    runFile_transcript painter loaded rfl
  obtain ⟨results, trace⟩ :=
    printed_runTranscript painter p options settings run.traceLines run.machine run.ending
  rw [← shown] at results trace
  have printed := run.machine.printedAs painter options.minimal
  refine ⟨⟨_, _, _, _, concludes, run.length_traceLines, traces, shown, ?_, ⟨_, _, printed, results⟩, ?_⟩, ?_⟩
  · rw [shown]
    cases run.ending <;> rfl
  · rw [trace]
    split
    next => exact traces.shows painter options.minimal
    next => exact .nil
  · intro ends more hle
    have decided := concludes.ending_ne_limit ends
    have same : start.run more = run := Machine.runFrom_of_le hle decided
    have raised : (runFile painter files settings p { options with steps := some more }).transcript =
        runTranscript painter p { options with steps := some more } settings run.traceLines run.machine run.ending :=
      runFile_transcript painter loaded same
    rw [raised, shown]
    cases h : run.ending with
    | limit => exact absurd h decided
    | halted => rfl
    | fault f => rfl

end Painted

/-- Files of which each holds one program: two empty instructions and a halt. -/
def Files.pause : Files where
  read _ := .ok (Image.write .blank 0 [0x00, 0x00, 0x76]).toList
  accept _ := .ok ()

theorem runFile_concludes_pause :
    let image := Image.write .blank 0 [0x00, 0x00, 0x76]
    let start := Machine.ofImage image
    let transcript := (runFile .ansi .pause ⟨true, some 2⟩ ⟨"pause.bin"⟩ {}).transcript
    (imageOfFile .pause ⟨"pause.bin"⟩).result = .ok image ∧
      ∃ k s ending lines, start.Concludes 2 k s ending ∧ lines.length = k ∧ start.Traces lines ∧
        transcript = runTranscript .ansi ⟨"pause.bin"⟩ {} ⟨true, some 2⟩ lines s ending ∧
        (∃ values stack, s.PrintedAs .ansi false values stack) ∧
        List.Forall₂ Escape.Shows (transcript.printed .trace) lines := by
  have loaded : (imageOfFile .pause ⟨"pause.bin"⟩).result = .ok (Image.write .blank 0 [0x00, 0x00, 0x76]) :=
    imageOfFile_of_binary (by decide) rfl
  obtain ⟨⟨k, s, ending, lines, concludes, length, traces, same, -, ⟨values, stack, printed, -⟩, shows⟩, -⟩ :=
    runFile_concludes .ansi .pause ⟨true, some 2⟩ ⟨"pause.bin"⟩ {} _ loaded
  exact ⟨loaded, k, s, ending, lines, concludes, length, traces, same, ⟨values, stack, printed⟩, shows⟩

end I8080
