import StoryBuild.Engine.Restore

namespace StoryBuild

/-- What can happen to an engine. -/
inductive Act (σ : Type) where
  | enqueue (master : Path) (immediate : Bool) (now : Nat)
  | drainQueue (now : Nat)
  | poll (now : Nat)
  | workerFinished (id : Nat) (o : Outcome) (now : Nat)
  | queueDrained (now : Nat)
  | tryRestricted
  | exitRestricted (now : Nat)
  | setMode (mode : Mode) (now : Nat)
  | sourceChanged (p : Path)
  | compileAll (force : Bool)
  | compileFile (p : Path) (immediate : Bool)
  | cancelAll
  | shutdown
  | rebuildGraph
  | rebuildIfRequired
  | restore (s : Snapshot)
  | loadAndRestore
  /-- The disk, or the compiler in its place, is not as it was. -/
  | siteChanged (site : σ)
  /-- The outstanding worker comes on, ends, hangs or gets lost. -/
  | workerTurn (state : WorkerState)
  /-- Compiles that wait are let go. -/
  | release (master : Option Path)
  | timePasses (millis : Nat)

namespace Engine

variable {σ : Type}

/-- An engine that has done nothing yet. -/
def fresh (graph : FileGraph) (options : EngineOptions) (site : σ) (dawn : Nat) : Engine σ :=
  { graph, options, site, dawn }

variable [Workshop σ]

/-- The engine after one happening. -/
def act (e : Engine σ) : Act σ → Engine σ
  | .enqueue master immediate now => (e.enqueueAt master immediate now).2
  | .drainQueue now => (e.drain now).2
  | .poll now => (e.pollAt now).2
  | .workerFinished id o now => e.finishJob id o now
  | .queueDrained now => (e.closeBatch now).2
  | .tryRestricted => e.tryRestricted.2
  | .exitRestricted now => e.exitRestricted now
  | .setMode mode now => e.setMode mode now
  | .sourceChanged p => (e.sourceChanged p).2
  | .compileAll force => (e.compileAll force).2
  | .compileFile p immediate => (e.compileFile p immediate).2
  | .cancelAll => e.cancelAll.2
  | .shutdown => e.shutdown
  | .rebuildGraph => e.rebuildGraph.2
  | .rebuildIfRequired => e.rebuildIfRequired.2
  | .restore s => (e.restore s).2
  | .loadAndRestore => e.loadAndRestore.2
  | .siteChanged site => { e with site }
  | .workerTurn state => { e with inFlight := e.inFlight.map fun w => { w with state } }
  | .release master => e.release master
  | .timePasses millis => { e with clock := e.clock + millis }

/-- The engine after many happenings. -/
def run (e : Engine σ) (acts : List (Act σ)) : Engine σ :=
  acts.foldl act e

end Engine

end StoryBuild
