import StoryBuild.Shell.Tools.Basic

namespace StoryBuild.Shell

/-- Runs steps whose changes are undone afterwards, but for what they print and do to the disk. -/
def alone {α : Type} (act : Act α) : Act α := do
  let s ← get
  let a ← act
  modify fun t =>
    { t with
      settings := s.settings, functions := s.functions, params := s.params, name := s.name
      strict := s.strict, traps := s.traps, exported := s.exported
      disk := { t.disk with here := s.disk.here } }
  pure a

/-- Sets the exit status and goes on. -/
def done (status : Nat) : Act Flow := do
  modify fun s => { s with status }
  pure .onward

/-- Ends a program with a status, unless its time is over by then. -/
def ended (status : Nat) : Act Flow := do
  let s ← get
  if s.patience < s.millis then pure .endless else done status

/-- Ends a strict script after a failure that nothing looks at. -/
def strictly (wires : Wires) (flow : Flow) : Act Flow := do
  let s ← get
  pure (if flow = .onward ∧ s.strict ∧ s.status ≠ 0 ∧ !wires.lenient then .exit else flow)

/-- A complaint of the shell. -/
def grumble (wires : Wires) (message : String) (status : Nat) : Act Flow := do
  complain wires s!"{(← get).name}: 1: {message}"
  done status

/-- Opens the target of a redirection for writing. -/
def openSink (wires : Wires) (adding : Bool) (target : String) : Act (Except String Sink) := do
  if target = "/dev/null" then pure (.ok .void)
  else if target = "/dev/stdout" then pure (.ok (wires.sink 1))
  else if target = "/dev/stderr" then pure (.ok (wires.sink 2))
  else
    let s ← get
    let old := if adding then (s.disk.readBytes (pathArg target)).toOption else none
    match s.disk.create (pathArg target) (old.getD .empty) with
    | .ok disk =>
      set { s with disk }
      match disk.locate true (pathArg target) with
      | .ok place => pure (.ok (.file (DiskTree.pathOf place)))
      | .error _ => pure (.ok .void)
    | .error .noEntry => pure (.error s!"cannot create {target}: Directory nonexistent")
    | .error fault => pure (.error s!"cannot create {target}: {faultText fault}")

/-- Opens the target of a redirection for reading. -/
def openInput (target : String) : Act (Except String Nat) := do
  if target = "/dev/null" then pure (.ok (← addInput []))
  else
    match (← get).disk.readBytes (pathArg target) with
    | .ok content => pure (.ok (← addInput content.toList))
    | .error .noEntry => pure (.error s!"cannot open {target}: No such file")
    | .error fault => pure (.error s!"cannot open {target}: {faultText fault}")

/-- What a shell says when a program was killed by a signal. -/
def deathText (signal : Nat) : String :=
  let texts := ["Hangup", "", "Quit", "Illegal instruction", "Trace/breakpoint trap", "Aborted",
    "Bus error", "Floating point exception", "Killed", "User defined signal 1",
    "Segmentation fault", "User defined signal 2", "", "Alarm clock", "Terminated"]
  texts.getD (signal - 1) ""

/-- What is left of leaving or repeating loops, outside of one loop. -/
def outside : Flow → Flow
  | .leave (k + 2) => .leave (k + 1)
  | .again (k + 2) => .again (k + 1)
  | .leave _ => .onward
  | .again _ => .onward
  | flow => flow

/-- Whether a loop goes on after a turn. -/
def turns : Flow → Bool
  | .onward => true
  | .again k => k ≤ 1
  | _ => false

/-- How a part of a pipe, or commands in brackets, leave the script around them. -/
def enclosed : Flow → Flow
  | .killed k => .killed k
  | .endless => .endless
  | _ => .onward

end StoryBuild.Shell
