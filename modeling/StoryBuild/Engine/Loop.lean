import StoryBuild.Engine.Restore

namespace StoryBuild

/-- What the loop is told. -/
inductive LoopEvent where
  | changed (p : Path)
  | compile (p : Path) (immediate : Bool)
  | compileAll (force : Bool)
  | enterRestricted
  | hostMode (mode : Mode)
  | stop

/-- The engine in its loop. -/
structure EventLoop (σ : Type) where
  engine : Engine σ
  exitWhenIdle : Bool := false
  running : Bool := true
  /-- What came of the last batch that ended on a tick. -/
  lastBatch : Option Summary := none

namespace EventLoop

variable {σ : Type} [Workshop σ]

/-- Ends the loop. The outstanding worker is stopped. -/
def finish (l : EventLoop σ) : EventLoop σ :=
  if l.running then { l with engine := l.engine.shutdown, running := false } else l

/-- Replaces the engine; a refusal is warned about. -/
def settle {α : Type} (l : EventLoop σ) (warning : String)
    (result : Except RequestError α × Engine σ) : EventLoop σ :=
  match result with
  | (.ok _, engine) => { l with engine }
  | (.error _, engine) => { l with engine := engine.note (.log ⟨.loop, .warn, warning⟩) }

/-- Takes one event. A loop that has ended takes none. -/
def handle (l : EventLoop σ) (event : LoopEvent) : EventLoop σ :=
  if !l.running then l
  else
    match event with
    | .changed p => { l with engine := (l.engine.sourceChanged p).2 }
    | .compile p immediate =>
      l.settle "compile request rejected" (l.engine.compileFile p immediate)
    | .compileAll force => l.settle "recompile-all failed" (l.engine.compileAll force)
    | .enterRestricted => { l with engine := l.engine.tryRestricted.2 }
    | .hostMode mode => { l with engine := l.engine.setMode mode l.engine.clock }
    | .stop => l.finish

/-- Looks at the engine once. -/
def tick (l : EventLoop σ) : EventLoop σ :=
  if !l.running then l
  else
    let (step, engine) := l.engine.poll
    let engine := engine.logAll (step.timedOut.map fun _ =>
      ⟨.loop, .warn, "compile abandoned after timeout"⟩)
    let l := { l with engine, lastBatch := step.completed <|> l.lastBatch }
    if l.exitWhenIdle && !engine.isBusy then l.finish else l

/-- Lets some ticks pass. -/
def ticks : Nat → EventLoop σ → EventLoop σ
  | 0, l => l
  | n + 1, l => ticks n l.tick

end EventLoop

end StoryBuild
