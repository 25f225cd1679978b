import I8080.Proofs.Path
import I8080.Proofs.RunCommand

namespace I8080

/-- The lines of the diagnostics that a command reports. -/
def Transcript.reports (t : Transcript) : List String :=
  t.events.filterMap fun
    | .report d => some d.text
    | _ => none

/-- The files that a command writes. -/
def Transcript.saves (t : Transcript) : List (Path × List UInt8) :=
  t.events.filterMap fun
    | .save p bytes => some (p, bytes)
    | _ => none

def abortMessage (count : Nat) : String :=
  "Aborting due to " ++ toString count ++ " assembly error" ++ if count = 1 then "" else "s"

/-- What can be seen of a command whose source does not assemble. -/
def abortTranscript (painter : Painter) (what : String) (p : Path) (diagnostics : List Diagnostic) : Transcript :=
  ⟨(Script.tellTarget painter what p).events ++ diagnostics.map .report, .failure (abortMessage diagnostics.length)⟩

theorem abortTranscript_reports (painter : Painter) (what : String) (p : Path) (diagnostics : List Diagnostic) :
    (abortTranscript painter what p diagnostics).reports =
      diagnostics.map fun d => "line " ++ toString d.line ++ ": " ++ d.error.message := by
  simp [Transcript.reports, abortTranscript, Script.tellTarget, Script.tell, Diagnostic.text]

theorem abortTranscript_saves (painter : Painter) (what : String) (p : Path) (diagnostics : List Diagnostic) :
    (abortTranscript painter what p diagnostics).saves = [] := by
  simp [Transcript.saves, abortTranscript, Script.tellTarget, Script.tell]

theorem Script.perform_fail {α : Type} (events : List Event) (message : String) :
    (Script.perform events >>= fun _ => (Script.fail message : Script α)) = ⟨events, .error message⟩ := by
  simp [bind, Script.perform, Script.fail]

section Source

variable {painter : Painter} {files : Files} {p : Path} {text : String}

theorem assembleFile_of_clean (contents : files.readText p = .ok text) (clean : (assemble text).diagnostics = []) :
    assembleFile files p = pure (assemble text) := by
  have ok : (assemble text).isOk = true := List.isEmpty_iff.mpr clean
  simp only [assembleFile, contents, Script.ofFile, Script.pure_bind, ok, if_true]

theorem assembleFile_of_faulty (contents : files.readText p = .ok text)
    (faulty : (assemble text).diagnostics ≠ []) :
    assembleFile files p =
      ⟨(assemble text).diagnostics.map .report, .error (abortMessage (assemble text).diagnostics.length)⟩ := by
  have failed : ¬(assemble text).isOk = true := fun ok => faulty (List.isEmpty_iff.mp ok)
  simp only [assembleFile, contents, Script.ofFile, Script.pure_bind, if_neg failed]
  exact Script.perform_fail _ _

/-- A command that assembles its source first shows nothing else if it does not assemble, whatever the command would
go on to. -/
theorem transcript_of_faulty (contents : files.readText p = .ok text) (faulty : (assemble text).diagnostics ≠ [])
    (what : String) (rest : Assembly → Script Unit) :
    (Script.tellTarget painter what p >>= fun _ => assembleFile files p >>= rest).transcript =
      abortTranscript painter what p (assemble text).diagnostics := by
  rw [assembleFile_of_faulty contents faulty]
  rfl

theorem imageOfFile_of_source (source : p.extension? = some "asm") :
    imageOfFile files p = assembleFile files p >>= fun a => pure a.image := by
  unfold imageOfFile
  rw [source]
  rfl

theorem runFile_of_faulty (source : p.extension? = some "asm") (contents : files.readText p = .ok text)
    (faulty : (assemble text).diagnostics ≠ []) (settings : Settings) (options : RunOptions) :
    (runFile painter files settings p options).transcript =
      abortTranscript painter "Assembling" p (assemble text).diagnostics := by
  unfold runFile
  rw [imageOfFile_of_source source, assembleFile_of_faulty contents faulty]
  rfl

theorem imageOfFile_of_clean (source : p.extension? = some "asm") (contents : files.readText p = .ok text)
    (clean : (assemble text).diagnostics = []) : (imageOfFile files p).result = .ok (assemble text).image := by
  rw [imageOfFile_of_source source, assembleFile_of_clean contents clean]
  rfl

theorem compileFile_of_clean {dest : Option Path} (contents : files.readText p = .ok text)
    (clean : (assemble text).diagnostics = [])
    (accepts : files.accept (dest.getD (p.withExtension "bin")) = .ok ()) :
    (compileFile painter files p dest).transcript.verdict = .success ∧
      (compileFile painter files p dest).transcript.saves =
        [(dest.getD (p.withExtension "bin"), (assemble text).image.toList)] := by
  simp only [compileFile, assembleFile_of_clean contents clean, Script.pure_bind, accepts, Script.ofFile]
  exact ⟨rfl, by simp [Transcript.saves, Script.tellTarget, Script.tell]⟩

end Source

/-- The commands agree on what a good source is: each fails on a source with diagnostics, having shown them and nothing
else, and none fails on a source without, but for what its run comes to. Compiling a source and running the binary file
that comes of it, whole or without zeros at its end, is running the source. -/
theorem commands_agree (painter : Painter) (files : Files) (settings : Settings) (p : Path) (dest : Option Path)
    (options : RunOptions) (text : String) (source : p.extension? = some "asm")
    (contents : files.readText p = .ok text) :
    let a := assemble text
    let transcript (request : Request) := (request.script painter files settings).transcript
    let target := dest.getD (p.withExtension "bin")
    (a.diagnostics ≠ [] →
      ∀ what request, (what, request) ∈ [("Checking", Request.check p), ("Assembling", .compile p dest),
          ("Assembling", .dump p), ("Assembling", .run p options)] →
        transcript request = abortTranscript painter what p a.diagnostics ∧
          (transcript request).verdict.exitCode = 1 ∧ (transcript request).saves = [] ∧
          (transcript request).reports =
            a.diagnostics.map fun d => "line " ++ toString d.line ++ ": " ++ d.error.message) ∧
      (a.diagnostics = [] →
        (transcript (.check p)).verdict.exitCode = 0 ∧ (transcript (.dump p)).verdict.exitCode = 0 ∧
          (files.accept target = .ok () →
            (transcript (.compile p dest)).verdict.exitCode = 0 ∧
              (transcript (.compile p dest)).saves = [(target, a.image.toList)]) ∧
          a.image.toList.length = 944 ∧ (p.withExtension "bin").extension? = some "bin" ∧
          ∀ (after : Files) (binary : Path) (bytes : List UInt8) (zeros : Nat), binary.extension? = some "bin" →
            after.read binary = .ok bytes → bytes ++ List.replicate zeros 0 = a.image.toList →
              let ran := (Machine.ofImage a.image).run (options.limit settings)
              let ending (p : Path) :=
                runTranscript painter p options settings ran.traceLines ran.machine ran.ending
              transcript (.run p options) = ending p ∧
                (runFile painter after settings binary options).transcript = ending binary ∧
                (ending p).verdict = (ending binary).verdict) := by
  intro a transcript target
  refine ⟨fun faulty what request mem => ?_, fun clean => ?_⟩
  · -- Three commands assemble before anything else, and the last does so to load its image.
    have aborts : transcript request = abortTranscript painter what p a.diagnostics := by
      simp only [List.mem_cons, Prod.mk.injEq, List.not_mem_nil, or_false] at mem
      obtain ⟨rfl, rfl⟩ | ⟨rfl, rfl⟩ | ⟨rfl, rfl⟩ | ⟨rfl, rfl⟩ := mem
      · exact transcript_of_faulty contents faulty _ _
      · exact transcript_of_faulty contents faulty _ _
      · exact transcript_of_faulty contents faulty _ _
      · exact runFile_of_faulty source contents faulty settings options
    rw [aborts]
    exact ⟨rfl, rfl, abortTranscript_saves _ _ _ _, abortTranscript_reports _ _ _ _⟩
  · have checks : (checkFile painter files p).transcript.verdict = .success := by
      rw [checkFile, assembleFile_of_clean contents clean]
      rfl
    have dumps : (dumpFile painter files p).transcript.verdict = .success := by
      rw [dumpFile, assembleFile_of_clean contents clean]
      rfl
    refine ⟨congrArg Verdict.exitCode checks, congrArg Verdict.exitCode dumps, fun accepts => ?_,
      Vector.length_toList, Path.extension?_withExtension source (by decide) (by decide) (by decide),
      fun after binary bytes zeros extension read whole => ?_⟩
    · obtain ⟨verdict, saves⟩ := compileFile_of_clean contents clean accepts
      exact ⟨congrArg Verdict.exitCode verdict, saves⟩
    · intro ran ending
      have loaded := imageOfFile_of_clean source contents clean
      have loaded' := imageOfFile_of_bytes extension read (Image.ofBytes?_of_append_zeros whole)
      refine ⟨runFile_transcript painter loaded rfl, runFile_transcript painter loaded' rfl, ?_⟩
      cases h : ran.ending <;> simp only [ending, runTranscript, h]

theorem Files.readText_of_text {files : Files} {p : Path} {text : String}
    (read : files.read p = .ok text.toUTF8.data.toList) : files.readText p = .ok text := by
  have valid : String.fromUTF8? text.toByteArray = some text := by
    simp [String.fromUTF8?, text.isValidUTF8, String.fromUTF8]
  have same : (⟨text.toUTF8.data.toList.toArray⟩ : ByteArray) = text.toByteArray := by simp
  simp only [Files.readText, read, same, valid]

/-- Files with a source that halts, its binary file without the zeros, and a source that does not assemble. -/
def Files.halt : Files where
  read p :=
    if p.text = "halt.asm" then .ok "hlt".toUTF8.data.toList
    else if p.text = "halt.bin" then .ok [0x76]
    else .ok "halt".toUTF8.data.toList
  accept _ := .ok ()

theorem commands_agree_halt :
    let settings : Settings := ⟨true, none⟩
    (dumpFile .plain .halt ⟨"fault.asm"⟩).transcript.verdict = .failure "Aborting due to 1 assembly error" ∧
      ∃ lines s ending,
        (runFile .plain .halt settings ⟨"halt.asm"⟩ {}).transcript =
            runTranscript .plain ⟨"halt.asm"⟩ {} settings lines s ending ∧
          (runFile .plain .halt settings ⟨"halt.bin"⟩ {}).transcript =
            runTranscript .plain ⟨"halt.bin"⟩ {} settings lines s ending := by
  intro settings
  have good : Files.halt.readText ⟨"halt.asm"⟩ = .ok "hlt" := Files.readText_of_text rfl
  have bad : Files.halt.readText ⟨"fault.asm"⟩ = .ok "halt" := Files.readText_of_text rfl
  have clean : (assemble "hlt").diagnostics = [] := by decide +kernel
  have whole : [0x76] ++ List.replicate 943 0 = (assemble "hlt").image.toList := by decide +kernel
  have one : (assemble "halt").diagnostics.length = 1 := by decide +kernel
  obtain ⟨fails, -⟩ := commands_agree .plain .halt settings ⟨"fault.asm"⟩ none {} "halt" (by decide) bad
  obtain ⟨-, succeeds⟩ := commands_agree .plain .halt settings ⟨"halt.asm"⟩ none {} "hlt" (by decide) good
  obtain ⟨-, -, -, -, -, runs⟩ := succeeds clean
  obtain ⟨source, binary, -⟩ := runs .halt ⟨"halt.bin"⟩ [0x76] 943 (by decide) rfl whole
  have faulty : (assemble "halt").diagnostics ≠ [] := List.length_pos_iff.mp (one ▸ Nat.one_pos)
  obtain ⟨aborts, -⟩ := fails faulty "Assembling" (.dump ⟨"fault.asm"⟩) (by simp)
  refine ⟨?_, _, _, _, source, binary⟩
  refine (congrArg Transcript.verdict aborts).trans ?_
  rw [abortTranscript, one]
  rfl

end I8080
