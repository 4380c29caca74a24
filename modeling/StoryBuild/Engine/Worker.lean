import StoryBuild.Engine.Basic

namespace StoryBuild.Engine

variable {σ : Type}

/-- What a job gives to the compiler. Its source is read first. -/
def request [Storage σ] (e : Engine σ) (j : Job) : Except IoError Request :=
  (Storage.readText e.site j.input).map fun source =>
    { job := j.id, master := j.path, input := j.input, output := j.output, source
      root := e.graph.root, includes := e.graph.includeMap j.path }

/-- Enters the compiler for a request. -/
def enter (e : Engine σ) (r : Request) : Engine σ :=
  { e with peak := max e.peak (e.inside + 1) }.note (.called r.job r.master)

/-- Compiles on the calling thread, and takes the result in. -/
def runHere [Workshop σ] (e : Engine σ) (r : Request) : Outcome × Engine σ :=
  let e := (e.note (.begun r.job)).enter r
  let (script, site) := Workshop.perform e.site r
  let e := { e with site }.note (.collected r.job)
  match script.play site r true false [] with
  | .finished o => (o, e)
  | _ => ({}, e)

/-- The worker of a compile is gone before it has entered the compiler. -/
def loseWorker (e : Engine σ) (r : Request) : Engine σ :=
  { e.note (.begun r.job) with inFlight := some ⟨r, .lost⟩ }

/-- Compiles on a worker, as far as the worker gets by itself. Its entry into the compiler is part
of this step: a worker that is slow to enter counts as one that waits inside, and no run has an entry
after the compile was given up, cancelled or let go. -/
def sendWorker [Workshop σ] (e : Engine σ) (r : Request) : Engine σ :=
  let e := (e.note (.begun r.job)).enter r
  let (script, site) := Workshop.perform e.site r
  { e with site, inFlight := some ⟨r, .ofProgress (script.play site r false false [])⟩ }

/-- Hands a compile to a worker. Without a worker there is a message instead. -/
def dispatch [Workshop σ] (e : Engine σ) (r : Request) : Except String (Engine σ) :=
  match Workshop.handOver e.site r with
  | .refused reason => .error s!"spawning compile worker thread: {reason}"
  | .lost => .ok (e.loseWorker r)
  | .taken => .ok (e.sendWorker r)

/-- While the calling thread sleeps, a waiting compile may come on. -/
def breathe [Workshop σ] (e : Engine σ) : Engine σ :=
  match e.inFlight with
  | some ⟨r, .waiting lines deaf next⟩ =>
    let (progress, site) := Workshop.meanwhile e.site r (.waiting lines deaf next)
    { e with site, inFlight := some ⟨r, .ofProgress progress⟩ }
  | _ => e

/-- Tells the outstanding worker to stop and lets go of it. One that waits stops at once, unless it
is deaf. -/
def cancelWorker (e : Engine σ) : Engine σ :=
  match e.inFlight with
  | none => e
  | some w =>
    let e := { e with inFlight := none }.note (.fired w.job)
    match w.state with
    | .waiting _ true _ => { e with strays := e.strays ++ [w] }
    | .waiting _ false _ => e.note (.stopped w.job w.request.master)
    | _ => e

/-- Lets a waiting worker go on. A stray one has been told to stop. -/
def resume [Storage σ] (e : Engine σ) (stray : Bool) (w : Worker) : Option Worker × Engine σ :=
  match w.state with
  | .waiting lines _ next =>
    match next.play e.site w.request false stray lines with
    | .finished o => (if stray then none else some { w with state := .finished o }, e)
    | .waiting lines deaf next => (some { w with state := .waiting lines deaf next }, e)
    | .stopped => (none, e.note (.stopped w.job w.request.master))
  | _ => (some w, e)

/-- Lets stray workers go on, the oldest first. -/
def resumeStrays [Storage σ] (e : Engine σ) (chosen : Worker → Bool) :
    List Worker → List Worker × Engine σ
  | [] => ([], e)
  | w :: rest =>
    if chosen w then
      let (kept, e) := e.resume true w
      let (others, e) := resumeStrays e chosen rest
      (kept.toList ++ others, e)
    else
      let (others, e) := resumeStrays e chosen rest
      (w :: others, e)

/-- Lets the waiting compiles of a master go on, or all of them. -/
def release [Storage σ] (e : Engine σ) (master : Option Path) : Engine σ :=
  let chosen := fun w : Worker => master.all fun p => w.request.master == p
  let (strays, e) := e.resumeStrays chosen e.strays
  let e := { e with strays }
  match e.inFlight with
  | some w =>
    if chosen w then
      let (kept, e) := e.resume false w
      { e with inFlight := kept }
    else e
  | none => e

end StoryBuild.Engine
