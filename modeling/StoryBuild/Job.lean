import StoryBuild.Compiler.Script

namespace StoryBuild

/-- The stages of a job, in order. -/
inductive JobState where
  | queued
  | compiling
  | complete
  deriving DecidableEq, Inhabited

/-- The name of a stage. -/
def JobState.name : JobState → String
  | queued => "queued"
  | compiling => "compiling"
  | complete => "complete"

/-- One attempt at a master. Times are in milliseconds. -/
structure Job where
  id : Nat
  path : Path
  input : Path
  output : Path
  /-- Whether the compile runs on the calling thread. -/
  immediate : Bool
  state : JobState := .queued
  started : Option Nat := none
  /-- The time of day of the start. -/
  startedWall : Option Nat := none
  ended : Option Nat := none
  lines : List String := []
  unhandled : List String := []
  artifact : Option ByteArray := none

namespace Job

/-- A job identity as it is shown. -/
def idText (id : Nat) : String :=
  s!"#{id}"

/-- Whether a job waits for its turn. -/
def isQueued (j : Job) : Bool :=
  j.state == .queued

/-- Whether a job is being compiled. -/
def isCompiling (j : Job) : Bool :=
  j.state == .compiling

/-- Whether a job is done. -/
def isComplete (j : Job) : Bool :=
  j.state == .complete

/-- The job starts to compile. -/
def start (j : Job) (now wall : Nat) : Job :=
  { j with state := .compiling, started := some now, startedWall := some wall }

/-- The job is over. -/
def complete (j : Job) (now : Nat) : Job :=
  { j with state := .complete, ended := some now }

/-- The job is over with a result. -/
def finish (j : Job) (o : Outcome) (now : Nat) : Job :=
  { j.complete now with lines := o.lines, unhandled := o.unhandled, artifact := o.artifact }

/-- How long a job has been compiling. It does not grow after the end. -/
def elapsed (j : Job) (now : Nat) : Nat :=
  match j.started, j.ended with
  | some start, some stop => stop - start
  | some start, none => now - start
  | none, _ => 0

/-- How long a finished job took. -/
def duration? (j : Job) : Option Nat :=
  match j.started, j.ended with
  | some start, some stop => some (stop - start)
  | _, _ => none

/-- Puts a job in its place by identity. -/
def insertById (j : Job) : List Job → List Job
  | [] => [j]
  | k :: rest => if j.id ≤ k.id then j :: k :: rest else k :: insertById j rest

/-- Jobs in the order of their identities. -/
def sortById (jobs : List Job) : List Job :=
  jobs.foldr insertById []

end Job

end StoryBuild
