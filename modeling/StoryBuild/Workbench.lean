import StoryBuild.Compiler.Command

namespace StoryBuild

/-- The machine, the compiler, and what the compiler has logged. -/
structure Workbench (σ : Type) where
  machine : σ
  compiler : CommandCompiler
  /-- No compile is let run for more milliseconds. -/
  patience : Nat
  /-- How many milliseconds the last compile takes. -/
  millis : Nat := 0
  /-- The log of the compiles, the latest line first. -/
  log : List LogLine := []

namespace Workbench

variable {σ : Type} [Machine σ]

/-- What an answer of the compiler means for the engine. -/
def scriptOf (a : CommandCompiler.Answer) : Script :=
  match a.result with
  | .ok (some content) => .succeed a.lines content
  | .ok none => .reject a.lines
  | .error e => .fail a.lines e.message

/-- The log of one compile. -/
def compileLog (a : CommandCompiler.Answer) : List LogLine :=
  let start : LogLine := ⟨.command, .info, "starting compiler process"⟩
  let exit : LogLine := ⟨.command, .debug, "compiler process exited"⟩
  let failure : LogLine := ⟨.worker, .error, "compiler failed"⟩
  match a.result with
  | .ok _ => [start, exit]
  | .error (.noScratchDir _ _) => [failure]
  | .error (.notStarted _ _) => [start, failure]
  | .error (.cancelled _) => [start, failure]
  | .error _ => [start, exit, failure]

/-- Compiles one master. -/
def perform (b : Workbench σ) (r : Request) : Script × Workbench σ :=
  let (answer, machine) := b.compiler.compile r false b.patience b.machine
  let script := scriptOf answer
  (if answer.millis = 0 then script else .hang [] false script,
    { b with machine, millis := answer.millis, log := (compileLog answer).reverse ++ b.log })

instance : Workshop (Workbench σ) where
  readText b := Storage.readText b.machine
  write b p content :=
    let (result, machine) := Storage.write b.machine p content
    (result, { b with machine })
  isPresent b := Storage.isPresent b.machine
  isFile b := Storage.isFile b.machine
  isDir b := Storage.isDir b.machine
  modified b p :=
    let (result, machine) := Storage.modified b.machine p
    (result, { b with machine })
  canonicalize b := Storage.canonicalize b.machine
  readDir b := Storage.readDir b.machine
  size b := Storage.size b.machine
  perform := perform

end Workbench

end StoryBuild
