import StoryBuild.Engine.Worker

namespace StoryBuild.Engine

variable {σ : Type} [Workshop σ]

/-- The result of a job whose compile could not begin. -/
def failedOutcome (message : String) : Outcome :=
  { unhandled := [message] }

/-- Whether a compile took so long that it is warned about. -/
def isSlow (e : Engine σ) (j : Job) : Bool :=
  e.options.slowAfter < j.duration?.getD 0 * 1000000

/-- Takes in the result of a compile. A result for a job that is not compiling is ignored. -/
def finishJob (e : Engine σ) (id : Nat) (o : Outcome) (now : Nat) : Engine σ :=
  match e.jobs.find? fun j => j.id == id && j.isCompiling with
  | none => e
  | some j =>
    let done := e.updateJob id fun j => j.finish o now
    let noted :=
      if e.isSlow (j.finish o now) then done.warn "compile is close to the timeout" else done
    noted.persist

/-- Puts the start of a job on record. -/
def markStarted (e : Engine σ) (j : Job) (now : Nat) : Engine σ :=
  (e.updateJob j.id fun j => j.start now e.wall).note (.started j.id)

/-- Starts one queued job. It ends at once if its source cannot be read, if it is compiled on the
calling thread, or if no worker can be had for it. -/
def startJob (e : Engine σ) (j : Job) (now : Nat) : Engine σ :=
  let begun := e.markStarted j now
  match e.request j with
  | .error cause => begun.finishJob j.id (failedOutcome cause.message) now
  | .ok r =>
    if j.immediate then
      let (o, ran) := begun.runHere r
      ran.finishJob j.id o ran.clock
    else
      match begun.dispatch r with
      | .ok away => away.persist
      | .error message => begun.finishJob j.id (failedOutcome message) now

/-- Starts queued jobs while no compile is outstanding. Returns the started jobs in order. -/
def drainLoop : Nat → Engine σ → Nat → List Nat × Engine σ
  | 0, e, _ => ([], e)
  | steps + 1, e, now =>
    if e.isCompiling || e.inFlight.isSome then ([], e)
    else
      match e.jobs.find? Job.isQueued with
      | none => ([], e)
      | some j =>
        let (ids, e) := drainLoop steps (e.startJob j now) now
        (j.id :: ids, e)

/-- Starts what can be started. -/
def drain (e : Engine σ) (now : Nat) : List Nat × Engine σ :=
  drainLoop e.jobs.length e now

end StoryBuild.Engine
