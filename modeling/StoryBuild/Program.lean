import StoryBuild.Session

namespace StoryBuild

/-- Why a run breaks off. -/
inductive RunError where
  | config (cause : LoadError)
  | storage (cause : IoError)
  | request (cause : RequestError)

/-- The first line of the complaint about a run that breaks off. -/
def RunError.headline : RunError → String
  | config cause => cause.message
  | storage cause => cause.headline
  | request cause => cause.message

/-- How a run ended. -/
structure Report where
  exit : Nat := 0
  /-- What was printed, the log apart. -/
  printed : String := ""
  /-- Why the run broke off, if it did. -/
  complaint : Option String := none
  log : List LogLine := []
  disk : DiskTree

/-- What the arguments lead to: an end, or a session that goes on until it is stopped. -/
inductive Opening where
  | ended (report : Report)
  | running (session : Session)

namespace Program

/-- The program's name and version. -/
def versionLine : String :=
  "inkwatch 0.1.0\n"

/-- The configuration in a file; without the file everything has its default. -/
def configAt (disk : DiskTree) (p : Path) : Except LoadError Config :=
  match disk.find p with
  | .error _ => Config.loadOrDefault none
  | .ok _ =>
    match disk.readBytes p with
    | .ok content => Config.ofBytes content
    | .error fault => .error (.unreadable fault)

/-- The directory of the configuration. A bare name lies in the working directory. -/
def configDir (disk : DiskTree) (p : Path) : Path :=
  match p.parent? with
  | some dir => if dir.text = "" then DiskTree.pathOf disk.here else dir
  | none => DiskTree.pathOf disk.here

/-- A project on the disk: its configuration and its graph as it was read. -/
structure Project where
  config : Config
  reading : FileGraph.Reading DiskTree

/-- Reads the configuration and the sources. -/
def openProject (o : RunOptions) (disk : DiskTree) : Except RunError Project := do
  let path := Path.ofText o.config
  let config ← (configAt disk path).mapError .config
  let root ← (Storage.canonicalize disk (config.rootDir (configDir disk path))).mapError .storage
  let reading ← (FileGraph.build root config.graphOptions disk).mapError .storage
  pure ⟨config, reading⟩

/-- The log of reading a project. -/
def Project.log (p : Project) : List LogLine :=
  let tracking : List LogLine :=
    p.reading.graph.files.map fun _ => ⟨.graph, .debug, "tracking new source file"⟩
  tracking ++ p.reading.log ++ [⟨.graph, .info, "file graph rebuilt"⟩]

/-- What the engine goes by. -/
def engineOptions (c : Config) (root : Path) : EngineOptions where
  timeout := c.timeout
  slowAfter := c.slowAfter
  statePath := some (c.statePath root)
  logDiagnostics := c.settings.compile.logDiagnostics
  compileOnChange := c.settings.compile.compileOnChange
  manualOnly := anyGlobMatches c.manualOnly

/-- The engine at its start. -/
def newEngine (p : Project) : Engine (Workbench DiskTree) :=
  let c := p.config
  let root := p.reading.graph.root
  { graph := p.reading.graph
    options := engineOptions c root
    site :=
      { machine := p.reading.storage
        compiler := ⟨c.settings.compile.command, c.settings.compile.args, c.scratchDir root⟩
        patience := c.timeout } }

/-- The log of taking up earlier work. -/
def restoreLog (e : Engine (Workbench DiskTree)) (ids : List Nat) : List LogLine :=
  let found := e.options.statePath.bind fun p => ((Snapshot.load e.site p).toOption).join
  match found with
  | none => [⟨.snapshot, .debug, "no persisted queue state"⟩]
  | some s =>
    (if s.isEmpty then [] else [⟨.engine, .info, "restoring interrupted compile queue"⟩]) ++
      if ids.isEmpty then [] else [⟨.program, .info, "resumed work from previous run"⟩]

/-- Takes up earlier work and queues what is to be compiled at the start. -/
def startWork (o : RunOptions) (c : Config) (e : Engine (Workbench DiskTree)) :
    Except RequestError (List LogLine) × Engine (Workbench DiskTree) :=
  match e.loadAndRestore with
  | (.error cause, e) => (.error cause, e)
  | (.ok ids, begun) =>
    let log := restoreLog e ids
    if o.once || o.force || c.settings.compile.compileOnStartup then
      match begun.compileAll o.force with
      | (.error cause, e) => (.error cause, e)
      | (.ok _, e) => (.ok (log ++ [⟨.program, .info, "startup compile"⟩]), e)
    else (.ok log, begun)

/-- The report on a dry run. -/
def dryRun (p : Project) : Report :=
  let g := p.reading.graph
  let (stale, disk) := g.staleMasters p.reading.storage
  { printed := DryRun.report p.config g stale
    log := p.log ++ [⟨.program, .debug, "dry-run complete (no compilation)"⟩]
    disk }

/-- The report on a run that broke off. -/
def brokenOff (cause : RunError) (log : List LogLine) (disk : DiskTree) : Report :=
  { exit := 1, complaint := some cause.headline, log, disk }

/-- The lines of a loop that starts to run. -/
def loopLog (watches : Bool) : List LogLine :=
  (if watches then [⟨.watcher, .info, "file watcher started"⟩] else []) ++
    [⟨.loop, .info, "inkwatch runtime started"⟩, ⟨.loop, .info, "inkwatch runtime exiting"⟩]

/-- The report on a session that has ended. One that compiles once ends badly if its last batch
left errors. -/
def reportOf (s : Session) : Report :=
  let failed := s.loop.exitWhenIdle && s.loop.lastBatch.any Summary.hasErrors
  { exit := if failed then 1 else 0
    log := s.log ++ loopLog (!s.loop.exitWhenIdle)
    disk := s.disk }

/-- Starts a run. -/
def openRun (o : RunOptions) (disk : DiskTree) : Opening :=
  match openProject o disk with
  | .error cause => .ended (brokenOff cause [] disk)
  | .ok p =>
    if o.dryRun then .ended (dryRun p)
    else
      let (work, engine) := startWork o p.config (newEngine p)
      let loop := { engine, exitWhenIdle := o.once }
      let s : Session := { loop, pollInterval := p.config.pollInterval, opening := p.log }
      match work with
      | .error cause => .ended (brokenOff (.request cause) s.log s.disk)
      | .ok log =>
        let s := { s with opening := p.log ++ log }
        if o.once then .ended (reportOf s.run) else .running s

/-- Starts the program in the working directory of a disk. -/
def start (args : List String) (disk : DiskTree) : Opening :=
  match CommandLine.ofArgs args with
  | .run o => openRun o disk
  | .version => .ended { printed := versionLine, disk }
  | .help => .ended { disk }
  | .misuse => .ended { exit := 2, disk }

/-- What comes of a start if nothing happens outside but that the program is stopped. -/
def finish : Opening → Report
  | .ended r => r
  | .running s => reportOf s.run.stop

/-- The filter for the log of a run. -/
def filterOf (args : List String) (surroundings : Option String) : LogFilter :=
  match CommandLine.ofArgs args with
  | .run o => .choose o.level surroundings
  | _ => .choose none surroundings

end Program

end StoryBuild
