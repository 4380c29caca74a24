import StoryBuild.Engine.Drain

namespace StoryBuild

/-- Why the engine refuses a request. -/
inductive RequestError where
  | unknownFile (p : Path)
  | notAMaster (p : Path)
  | alreadyQueued (p : Path)
  | compileInProgress
  | storage (cause : IoError)
  | malformedSnapshot

/-- The wording of a refusal. -/
def RequestError.message : RequestError → String
  | unknownFile p => s!"Unknown source file: {quoted p.text}"
  | notAMaster p => s!"Not a master file: {quoted p.text}"
  | alreadyQueued p => s!"Master file already has an active compile job: {quoted p.text}"
  | compileInProgress =>
    "Compilation in progress; wait for the batch to finish or cancel it first"
  | storage cause => cause.headline
  | malformedSnapshot => "Queue state error"

namespace Engine

variable {σ : Type} [Workshop σ]

/-- Why a compile of a path is refused, if it is. -/
def refusal? (e : Engine σ) (master : Path) : Option RequestError :=
  match e.graph.file? master with
  | none => some (.unknownFile master)
  | some f =>
    if !f.isMaster then some (.notAMaster master)
    else if e.hasActiveJob master then some (.alreadyQueued master)
    else none

/-- Notes a refusal. Only a second request for one master is logged. -/
def noteRefusal (e : Engine σ) : RequestError → Engine σ
  | .alreadyQueued _ => e.warn "master already has an active compile job; rejecting"
  | _ => e

/-- The host holds its rebuilds back from the first job of a batch on. -/
def suspendHost (e : Engine σ) : Engine σ :=
  if !e.isBusy && !e.suspended then { e.tell .suspend with suspended := true } else e

/-- The job of the next identity for a master. -/
def newJob (e : Engine σ) (master : Path) (immediate : Bool) : Job where
  id := e.nextId
  path := master
  input := e.graph.absolute master
  output := e.graph.absolute (e.graph.artifactPath master)
  immediate := immediate

/-- Puts a new job at the end of the queue. Its master waits no longer. -/
def addJob (e : Engine σ) (master : Path) (immediate : Bool) : Engine σ :=
  let j := e.newJob master immediate
  let e := e.suspendHost
  ({ e with
    jobs := e.jobs ++ [j]
    nextId := e.nextId + 1
    pending := (e.pending.remove master).2 }.note (.queued j.id master)).persist

/-- Queues a compile and starts what can be started. -/
def submit (e : Engine σ) (master : Path) (immediate : Bool) (now : Nat) :
    Except RequestError Nat × Engine σ :=
  match e.refusal? master with
  | some refusal => (.error refusal, e.noteRefusal refusal)
  | none => (.ok e.nextId, ((e.addJob master immediate).drain now).2)

end Engine

end StoryBuild
