import StoryBuild.Pending
import StoryBuild.Snapshot
import StoryBuild.Summary
import StoryBuild.Graph.Discovery

namespace StoryBuild

/-- Whether sources are being edited or the stories are in use. While they are in use, no compile
is started. -/
inductive Mode where
  | editing
  | restricted
  deriving DecidableEq, Inhabited

/-- What the host is told. -/
inductive HostEvent where
  | suspend
  | release
  | deferred
  | enterRestricted
  | stackCompleted (summary : Summary)

/-- What the engine did, in terms of jobs, the host, the disk and the log. -/
inductive Event where
  | host (e : HostEvent)
  /-- A job was made and put in the queue. -/
  | queued (job : Nat) (master : Path)
  /-- A job left the queue. -/
  | started (job : Nat)
  /-- The compile of a job was set going, on a worker or on the calling thread. -/
  | begun (job : Nat)
  /-- The compiler was entered for a job. -/
  | called (job : Nat) (master : Path)
  /-- The result of a compile, or the loss of its worker, was taken in. -/
  | collected (job : Nat)
  /-- A worker was told to stop. -/
  | fired (job : Nat)
  /-- A waiting compile stopped because it was told to. -/
  | stopped (job : Nat) (master : Path)
  /-- A job was dropped before it was complete. -/
  | dropped (job : Nat)
  /-- The result of a job was put on record. -/
  | applied (job : Nat)
  /-- The artifact of a job was written. -/
  | produced (job : Nat)
  /-- A batch ended: its jobs in the order of the record, and what came of them. -/
  | drained (jobs : List Job) (summary : Summary)
  /-- The mode was set. -/
  | mode (m : Mode)
  /-- Waiting masters are being taken up. These were taken off the list, and their turns are still
  to come. -/
  | toCome (masters : List Path)
  | wrote (p : Path) (content : ByteArray)
  | log (line : LogLine)

/-- What the engine goes by. Times are in milliseconds. -/
structure EngineOptions where
  /-- A compile that runs longer is given up. -/
  timeout : Nat := 30000
  /-- A compile that takes longer, in nanoseconds, is warned about. -/
  slowAfter : Nat := 24000000000
  /-- Where the snapshot goes; without it none is kept. -/
  statePath : Option Path := none
  logDiagnostics : Bool := true
  /-- Whether a change of a source leads to a compile. -/
  compileOnChange : Bool := true
  /-- The masters that are compiled on request only. -/
  manualOnly : Path → Bool := fun _ => false

/-- How a worker stands. -/
inductive WorkerState where
  | finished (outcome : Outcome)
  | waiting (lines : List String) (deaf : Bool) (next : Script)
  | lost

/-- How a worker stands after a compile has come this far. One that stopped unasked is lost. -/
def WorkerState.ofProgress : Progress → WorkerState
  | .finished o => .finished o
  | .waiting lines deaf next => .waiting lines deaf next
  | .stopped => .lost

/-- The compile of one job beside the calling thread. -/
structure Worker where
  request : Request
  state : WorkerState

namespace Worker

/-- The job that is compiled. -/
def job (w : Worker) : Nat :=
  w.request.job

/-- The output so far. -/
def lines (w : Worker) : List String :=
  match w.state with
  | .finished o => o.lines
  | .waiting lines _ _ => lines
  | .lost => []

/-- Whether the compile waits. -/
def isWaiting (w : Worker) : Bool :=
  match w.state with
  | .waiting _ _ _ => true
  | _ => false

end Worker

/-- The engine with the storage it works in. At most one compile is outstanding, and finished jobs
stay until the whole batch is done. Whatever is done to the outside is kept in the trace. -/
structure Engine (σ : Type) where
  graph : FileGraph
  options : EngineOptions
  site : σ
  /-- The active jobs, in the order in which they were asked for. -/
  jobs : List Job := []
  /-- Jobs that ran too long and are not reported yet. -/
  abandoned : List Job := []
  inFlight : Option Worker := none
  /-- Workers that were told to stop and have not left the compiler. -/
  strays : List Worker := []
  pending : Pending := {}
  nextId : Nat := 1
  mode : Mode := .editing
  /-- Whether the restricted mode is entered when the batch ends well. -/
  deferredEntry : Bool := false
  /-- Whether the host holds its own rebuilds back. -/
  suspended : Bool := false
  /-- The engine's own clock. -/
  clock : Nat := 0
  /-- The time of day at which the clock stood at zero. -/
  dawn : Nat := 0
  /-- The most compiles that were in the compiler at once. -/
  peak : Nat := 0
  /-- What was done, the latest first. -/
  trace : List Event := []

namespace Engine

variable {σ : Type}

/-- Adds an event to the trace. -/
def note (e : Engine σ) (event : Event) : Engine σ :=
  { e with trace := event :: e.trace }

/-- Adds events to the trace, in order. -/
def noteAll (e : Engine σ) (events : List Event) : Engine σ :=
  { e with trace := events.reverse ++ e.trace }

/-- Tells the host. -/
def tell (e : Engine σ) (event : HostEvent) : Engine σ :=
  e.note (.host event)

/-- Adds log lines to the trace. -/
def logAll (e : Engine σ) (lines : List LogLine) : Engine σ :=
  e.noteAll (lines.map Event.log)

/-- Adds a warning to the trace. -/
def warn (e : Engine σ) (message : String) : Engine σ :=
  e.note (.log ⟨.engine, .warn, message⟩)

/-- Adds the report of a failure to the trace. -/
def error (e : Engine σ) (message : String) : Engine σ :=
  e.note (.log ⟨.engine, .error, message⟩)

/-- Sets the mode. -/
def changeMode (e : Engine σ) (m : Mode) : Engine σ :=
  { e with mode := m }.note (.mode m)

/-- The time of day. -/
def wall (e : Engine σ) : Nat :=
  e.dawn + e.clock

/-- Whether a batch is outstanding. -/
def isBusy (e : Engine σ) : Bool :=
  !e.jobs.isEmpty || !e.abandoned.isEmpty

/-- Whether a job is being compiled. -/
def isCompiling (e : Engine σ) : Bool :=
  e.jobs.any Job.isCompiling

/-- Whether a job waits for its turn. -/
def hasQueued (e : Engine σ) : Bool :=
  e.jobs.any Job.isQueued

/-- The active job with an identity. -/
def job? (e : Engine σ) (id : Nat) : Option Job :=
  e.jobs.find? (·.id == id)

/-- Whether a master has an active job. -/
def hasActiveJob (e : Engine σ) (master : Path) : Bool :=
  e.jobs.any (·.path == master)

/-- Changes the active job with an identity. -/
def updateJob (e : Engine σ) (id : Nat) (f : Job → Job) : Engine σ :=
  { e with jobs := e.jobs.map fun j => if j.id == id then f j else j }

/-- How many compiles are in the compiler. -/
def inside (e : Engine σ) : Nat :=
  e.strays.length + if e.inFlight.any Worker.isWaiting then 1 else 0

/-- The queue as it is kept on disk. -/
def snapshot (e : Engine σ) : Snapshot where
  pending := e.pending.order.map fun p => slashed p.text
  active := e.jobs.map fun j => ⟨slashed j.path.text, j.state, j.startedWall.bind savedTime⟩

/-- Writes the snapshot, if one is kept. A refused write is warned about and otherwise ignored. -/
def persist [Storage σ] (e : Engine σ) : Engine σ :=
  match e.options.statePath with
  | none => e
  | some p =>
    let content := e.snapshot.render.toUTF8
    match e.snapshot.save e.site p with
    | (.ok (), site) => { e with site }.note (.wrote p content)
    | (.error _, site) => { e with site }.warn "failed to persist queue state"

end Engine

end StoryBuild
