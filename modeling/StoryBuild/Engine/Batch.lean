import StoryBuild.Engine.Queue
import StoryBuild.Graph.Outcome

namespace StoryBuild.Engine

variable {σ : Type} [Workshop σ]

/-- The log lines of reading a compiler's output. -/
def readingLog (lines : List String) : List LogLine :=
  (Diagnostic.spokenLines lines).filterMap fun line =>
    match Diagnostic.noteOfLine line with
    | some .unreadable =>
      some ⟨.diagnostics, .warn, "could not parse compiler output line; dropping it"⟩
    | some .numberOutOfRange =>
      some ⟨.diagnostics, .warn, "line number out of range; keeping the message without it"⟩
    | none => none

/-- The log line of a diagnostic. -/
def diagnosticLog (d : Diagnostic) : LogLine :=
  match d.severity with
  | .error => ⟨.diagnostics, .error, d.text⟩
  | .warning => ⟨.diagnostics, .warn, d.text⟩
  | .author => ⟨.diagnostics, .info, d.text⟩

/-- Writes the artifact of a job. Returns where it went and what is to be reported if it could not
be written. -/
def writeArtifact (e : Engine σ) (j : Job) : Option Path × List String × Engine σ :=
  match j.artifact with
  | none => (none, [], e)
  | some content =>
    match Storage.write e.site j.output content with
    | (.ok (), site) =>
      (some (e.graph.artifactPath j.path), [],
        ({ e with site }.note (.wrote j.output content)).note (.produced j.id))
    | (.error cause, site) =>
      (none, [s!"failed to write artifact: {cause.message}"],
        { e with site }.error "failed to write artifact")

/-- The number of diagnostics of a severity. -/
def countOf (s : Severity) (diagnostics : List Diagnostic) : Nat :=
  diagnostics.countP fun d => d.severity == s

/-- Adds the result of one job to a summary. -/
def addResult (s : Summary) (j : Job) (diagnostics : List Diagnostic) (unhandled : List String)
    (artifact : Option Path) : Summary :=
  { s with
    compiled := s.compiled ++ [j.path]
    failed := if artifact.isNone then s.failed ++ [j.path] else s.failed
    errors := s.errors + countOf .error diagnostics
    warnings := s.warnings + countOf .warning diagnostics
    todos := s.todos + countOf .author diagnostics
    unhandled := s.unhandled + unhandled.length }

/-- Puts the result of one job on record. -/
def applyJob (state : Summary × Engine σ) (j : Job) : Summary × Engine σ :=
  let (s, e) := state
  let (artifact, failures, e) := e.writeArtifact j
  let diagnostics := Diagnostic.ofLines j.lines
  let unhandled := j.unhandled ++ failures
  let e := e.logAll (readingLog j.lines)
  let e := if e.options.logDiagnostics then e.logAll (diagnostics.map diagnosticLog) else e
  let graph := e.graph.applyOutcome j.path diagnostics unhandled artifact e.wall
  (addResult s j diagnostics unhandled artifact, { e with graph }.note (.applied j.id))

/-- The jobs of a batch in the order of their identities. -/
def batchJobs (e : Engine σ) : List Job :=
  Job.sortById (e.jobs ++ e.abandoned)

/-- The host may rebuild again. -/
def releaseHost (e : Engine σ) : Engine σ :=
  if e.suspended then { e with suspended := false }.tell .release else e

/-- Makes a deferred entry into the restricted mode good, unless the batch ended with errors. -/
def replayEntry (e : Engine σ) (s : Summary) : Engine σ :=
  if e.deferredEntry then
    let e := { e with deferredEntry := false }
    if s.hasErrors then e.warn "batch ended with errors; not entering restricted mode"
    else (e.changeMode .restricted).tell .enterRestricted
  else e

/-- Makes a waiting master a job. One that has an active job goes on waiting; one that cannot be
compiled is dropped. -/
def promoteOne (now : Nat) (e : Engine σ) (p : Path) : Engine σ :=
  if e.hasActiveJob p then { e with pending := (e.pending.push p).2 }
  else (e.submit p false now).2

/-- Makes masters that were taken off the waiting list jobs, one after the other. At each turn it is
noted which masters are still to come. -/
def promoteAll (now : Nat) : List Path → Engine σ → Engine σ
  | [], e => e
  | p :: left, e => promoteAll now left (promoteOne now (e.note (.toCome left)) p)

/-- Makes the waiting masters jobs, in order. -/
def promote (e : Engine σ) (now : Nat) : Engine σ :=
  let (paths, pending) := e.pending.drain
  let e := { e with pending }.note (.toCome paths)
  if paths.isEmpty then e else (promoteAll now paths e).persist

/-- Puts the results of all jobs on record. -/
def applyBatch (e : Engine σ) : Summary × Engine σ :=
  let jobs := e.batchJobs
  let (s, e) := jobs.foldl applyJob ({}, { e with jobs := [], abandoned := [] })
  let s := { s with hasErrors := jobs.any fun j => e.graph.familyHasErrors j.path }
  (s, e.note (.drained jobs s))

/-- Puts the results of all jobs on record, tells the host, and makes a deferred entry good. -/
def endBatch (e : Engine σ) : Summary × Engine σ :=
  let (s, e) := e.applyBatch
  (s, (e.persist.releaseHost.tell (.stackCompleted s)).replayEntry s)

/-- Ends a batch, and makes the waiting masters jobs if the mode allows it. -/
def closeBatch (e : Engine σ) (now : Nat) : Summary × Engine σ :=
  let (s, e) := e.endBatch
  (s, if e.mode == .editing && !e.pending.isEmpty then e.promote now else e)

end StoryBuild.Engine
