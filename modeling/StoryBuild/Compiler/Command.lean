import StoryBuild.Compiler.Child
import StoryBuild.Compiler.Script
import StoryBuild.Text.Blank

namespace StoryBuild

/-- The program, its arguments with placeholders, and where it puts its output. -/
structure CommandCompiler where
  program : String
  args : List String
  scratchDir : Path

/-- Why a compile by a program failed. -/
inductive CommandError where
  | noScratchDir (p : Path) (fault : SystemFault)
  | notStarted (program : String) (fault : SystemFault)
  | cancelled (master : Path)
  | noOutput (p : Path) (fault : SystemFault)
  /-- The program failed and gave no reason. -/
  | silent (program : String) (exit : ChildExit)

/-- The wording of a failure. -/
def CommandError.message : CommandError → String
  | noScratchDir p fault => (IoError.system (.scratchDir p) fault).message
  | notStarted program fault => s!"spawning compiler '{program}': {fault.message}"
  | cancelled master => s!"compile of {master.text} was cancelled"
  | noOutput p fault => (IoError.system (.readOutput p) fault).message
  | silent program exit =>
    s!"compiler '{program}' exited with {exit.text} without reporting an error"

/-- Puts one text in place of every occurrence of another, from left to right. The number counts
characters of an occurrence that are still to be passed over. -/
def replaceFrom (pattern content : List Char) : Nat → List Char → List Char
  | _, [] => []
  | skip + 1, _ :: cs => replaceFrom pattern content skip cs
  | 0, c :: cs =>
    if pattern.isPrefixOf (c :: cs) then
      content ++ replaceFrom pattern content (pattern.length - 1) cs
    else c :: replaceFrom pattern content 0 cs

/-- `replaceFrom` on strings. -/
def replaceAll (pattern content s : String) : String :=
  String.ofList (replaceFrom pattern.toList content.toList 0 s.toList)

/-- An argument with the source and the scratch file in place of their placeholders. The source is
put in first. -/
def expandArg (input scratch : Path) (arg : String) : String :=
  replaceAll "\x7boutput\x7d" scratch.text (replaceAll "\x7binput\x7d" input.text arg)

/-- Whether a line reports an error in the source. -/
def announcesError (line : String) : Bool :=
  "ERROR".toList.isPrefixOf (trimStart line.toList)

namespace CommandCompiler

/-- The scratch file of a job. -/
def scratchFile (c : CommandCompiler) (job : Nat) : Path :=
  c.scratchDir.join (.ofText s!"job-{job}.json")

/-- The arguments for a source and a scratch file. -/
def expandArgs (c : CommandCompiler) (input scratch : Path) : List String :=
  c.args.map (expandArg input scratch)

/-- What to make of a program that failed: the source has errors if the program said so. -/
def verdict (c : CommandCompiler) (lines : List String) (exit : ChildExit) :
    Except CommandError (Option ByteArray) :=
  if lines.any announcesError then .ok none else .error (.silent c.program exit)

variable {σ : Type} [Machine σ]

/-- Removes a file if it is there. -/
def discard (s : σ) (p : Path) : σ :=
  (Machine.removeFile s p).toOption.getD s

/-- The result of a compile: the lines that were printed, the artifact if the source has no errors,
and how long it took. -/
structure Answer where
  lines : List String := []
  result : Except CommandError (Option ByteArray)
  millis : Nat := 0

/-- What a run of the program has come to. The scratch file is gone afterwards. -/
def collect (c : CommandCompiler) (scratch : Path) (run : ChildRun) (s : σ) : Answer × σ :=
  let lines := relayedLines run.output
  if run.exit.isSuccess then
    match Machine.readBytes s scratch with
    | .ok content => (⟨lines, .ok (some content), run.millis⟩, discard s scratch)
    | .error fault => (⟨lines, .error (.noOutput scratch fault), run.millis⟩, s)
  else (⟨lines, c.verdict lines run.exit, run.millis⟩, discard s scratch)

/-- The directory in which the program runs. -/
def workDir (r : Request) : Path :=
  r.input.parent?.getD (.ofText ".")

/-- Compiles one master, with some milliseconds to do it in. A cancelled compile is stopped before
it prints. -/
def compile (c : CommandCompiler) (r : Request) (cancelled : Bool) (patience : Nat) (s : σ) :
    Answer × σ :=
  match Machine.makeDirs s c.scratchDir with
  | .error fault => ({ result := .error (.noScratchDir c.scratchDir fault) }, s)
  | .ok s =>
    let scratch := c.scratchFile r.job
    match Machine.launch s patience (workDir r) c.program (c.expandArgs r.input scratch) with
    | (.error fault, _) =>
      ({ result := .error (.notStarted c.program fault) }, discard s scratch)
    | (.ok run, after) =>
      if cancelled then ({ result := .error (.cancelled r.master) }, discard s scratch)
      else c.collect scratch run after

end CommandCompiler

end StoryBuild
