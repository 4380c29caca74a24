import StoryBuild.Engine.Batch
import StoryBuild.Rounding

namespace StoryBuild

/-- What one look led to. -/
structure PollStep where
  started : List Nat := []
  timedOut : List Path := []
  completed : Option Summary := none

namespace Engine

variable {σ : Type} [Workshop σ]

/-- The result of a lost worker. -/
def lostOutcome (w : Worker) : Outcome :=
  { lines := w.lines, unhandled := ["compile worker exited without reporting a result"] }

/-- Takes in the result of the outstanding worker, if there is one. -/
def collect (e : Engine σ) (now : Nat) : Engine σ :=
  match e.inFlight with
  | none => e
  | some w =>
    let free := { e with inFlight := none }.note (.collected w.job)
    match w.state with
    | .waiting _ _ _ => e
    | .finished o => free.finishJob w.job o now
    | .lost =>
      (free.error "compile worker exited without reporting a result").finishJob w.job
        (lostOutcome w) now

/-- The report on a compile that ran too long, with what it had printed. -/
def timeoutMessage (e : Engine σ) (j : Job) (lines : List String) : String :=
  let head :=
    s!"compile of {j.path.text} timed out after {oneDecimal (secondsOf e.options.timeout)}s"
  if lines.isEmpty then head ++ "; no output was captured"
  else head ++ "; partial output:\n" ++ "\n".intercalate lines

/-- The output so far of the worker of a job. -/
def partialLines (e : Engine σ) (j : Job) : List String :=
  match e.inFlight with
  | some w => if w.job == j.id then w.lines else []
  | none => []

/-- Stops the worker of a job, if it is the outstanding one. -/
def cancelJob (e : Engine σ) (j : Job) : Engine σ :=
  if e.inFlight.any (·.job == j.id) then e.cancelWorker else e

/-- Gives a job up: it leaves the queue with a failure to report. -/
def abandon (e : Engine σ) (j : Job) (now : Nat) : Engine σ :=
  let lines := e.partialLines j
  let given := { j.complete now with
    lines
    unhandled := j.unhandled ++ [e.timeoutMessage j lines]
    artifact := none }
  let e := { e.cancelJob j with jobs := e.jobs.filter fun k => !(k.id == j.id) }
  let e := e.error "compile timed out; abandoning job"
  { e with abandoned := e.abandoned ++ [given] }.persist

/-- Gives the compiling job up if it is over its time, and starts the next. -/
def expire (e : Engine σ) (now : Nat) : List Path × List Nat × Engine σ :=
  match e.jobs.find? Job.isCompiling with
  | none => ([], [], e)
  | some j =>
    if e.options.timeout < j.elapsed now then
      let (ids, e) := (e.abandon j now).drain now
      ([j.path], ids, e)
    else ([], [], e)

/-- Starts the next job if none is compiling. -/
def advance (e : Engine σ) (now : Nat) : List Nat × Engine σ :=
  if !e.isCompiling && e.hasQueued then e.drain now else ([], e)

/-- Ends the batch if no work is left in it. -/
def settle (e : Engine σ) (now : Nat) : Option Summary × Engine σ :=
  if !e.isCompiling && !e.hasQueued && e.isBusy then
    let (s, e) := e.closeBatch now
    (some s, e)
  else (none, e)

/-- One look at a given time. -/
def pollAt (e : Engine σ) (now : Nat) : PollStep × Engine σ :=
  let (timedOut, first, e) := (e.collect now).expire now
  let (second, e) := e.advance now
  let (completed, e) := e.settle now
  (⟨first ++ second, timedOut, completed⟩, e)

/-- One look by the engine's own clock. -/
def poll (e : Engine σ) : PollStep × Engine σ :=
  e.pollAt e.clock

/-- Whether nothing is to be waited for: the job is complete or gone. -/
def isSettled (e : Engine σ) (id : Nat) : Bool :=
  (e.job? id).all Job.isComplete

/-- Lets the time pass until the compiling job is over its time, unless its worker is done. -/
def passTime (e : Engine σ) : Engine σ :=
  if e.inFlight.any fun w => !w.isWaiting then e
  else
    match e.jobs.find? Job.isCompiling with
    | none => e
    | some j =>
      { e with clock := max e.clock (j.started.getD e.clock + e.options.timeout + 1) }

/-- One look after the outstanding worker has had its turn. -/
def breatheAndPoll (e : Engine σ) : Engine σ :=
  e.breathe.poll.2

/-- Looks again and again until a job is complete or gone, and then once more. -/
def waitFor (id : Nat) : Nat → Engine σ → Engine σ
  | 0, e => e.breatheAndPoll
  | steps + 1, e =>
    if e.isSettled id then e.breatheAndPoll
    else
      let e := e.breatheAndPoll
      waitFor id steps (if e.isSettled id then e else e.passTime)

/-- Queues a compile. An immediate one has ended when this returns. -/
def enqueueAt (e : Engine σ) (master : Path) (immediate : Bool) (now : Nat) :
    Except RequestError Nat × Engine σ :=
  match e.submit master immediate now with
  | (.error refusal, e) => (.error refusal, e)
  | (.ok id, e) =>
    (.ok id, if immediate then waitFor id (2 * (e.jobs.length + 1)) e else e)

/-- Queues a compile at the time of the engine's own clock. -/
def enqueue (e : Engine σ) (master : Path) (immediate : Bool) :
    Except RequestError Nat × Engine σ :=
  e.enqueueAt master immediate e.clock

end Engine

end StoryBuild
