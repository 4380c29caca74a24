import StoryBuild.Engine.Poll
import StoryBuild.Graph.Refresh
import StoryBuild.Graph.Staleness
import StoryBuild.Graph.Check

namespace StoryBuild

/-- The answer to a wish to enter the restricted mode. -/
inductive ModeAnswer where
  | allowed
  | deferred
  deriving DecidableEq

namespace Engine

variable {σ : Type} [Workshop σ]

/-- The host wants to enter the restricted mode. While a batch is outstanding this is deferred. -/
def tryRestricted (e : Engine σ) : ModeAnswer × Engine σ :=
  if e.isBusy then (.deferred, { e with deferredEntry := true }.tell .deferred)
  else (.allowed, e.changeMode .restricted)

/-- Back to editing: waiting masters become jobs. -/
def exitRestricted (e : Engine σ) (now : Nat) : Engine σ :=
  if e.mode == .editing then e else (e.changeMode .editing).promote now

/-- The host has changed the mode. -/
def setMode (e : Engine σ) (mode : Mode) (now : Nat) : Engine σ :=
  match mode with
  | .editing => e.exitRestricted now
  | .restricted => e.changeMode .restricted

/-- Lets a master wait. Says whether it did not wait already. -/
def park (e : Engine σ) (master : Path) : Bool × Engine σ :=
  let (added, pending) := e.pending.push master
  (added, { e with pending })

/-- Lets masters wait. Says whether one of them did not wait already. -/
def parkAll (e : Engine σ) (masters : List Path) : Bool × Engine σ :=
  masters.foldl (fun state p =>
    let (added, e) := state.2.park p
    (state.1 || added, e)) (false, e)

/-- Queues or parks one master after a change. Says whether it was parked anew. -/
def reactTo (state : Bool × Engine σ) (master : Path) : Bool × Engine σ :=
  let (parked, e) := state
  if e.options.manualOnly master then (parked, e)
  else if e.mode == .restricted || e.hasActiveJob master then
    let (added, e) := e.park master
    (parked || added, e)
  else
    match e.enqueue master false with
    | (.ok _, e) => (parked, e)
    | (.error _, e) => (parked, e.warn "could not queue compile")

/-- A source changed, appeared or vanished. Returns the masters that it affects. -/
def sourceChanged (e : Engine σ) (p : Path) : List Path × Engine σ :=
  let (masters, reading) := e.graph.refresh e.site p
  let e := { e with graph := reading.graph, site := reading.storage }.logAll reading.log
  if e.options.compileOnChange then
    let (parked, e) := masters.foldl reactTo (false, e)
    (masters, if parked then e.persist else e)
  else (masters, e)

/-- The masters that a compile of everything is about. -/
def targets (e : Engine σ) (force : Bool) : List Path × Engine σ :=
  if force then (e.graph.masterFiles.map SourceFile.path, e)
  else
    let (stale, site) := e.graph.staleMasters e.site
    (stale.filter fun p => !e.options.manualOnly p, { e with site })

/-- Queues or parks masters one by one, up to the first refusal. -/
def compileEach : List Path → Engine σ → Except RequestError (List Nat) × Engine σ
  | [], e => (.ok [], e)
  | p :: rest, e =>
    if e.hasActiveJob p then compileEach rest e
    else if e.mode == .restricted then
      let (added, e) := e.park p
      compileEach rest (if added then e.persist else e)
    else
      match e.enqueue p false with
      | (.error refusal, e) => (.error refusal, e)
      | (.ok id, e) =>
        let (ids, e) := compileEach rest e
        (ids.map (id :: ·), e)

/-- Compiles the stale masters that are not compiled on request only, or all masters by force. -/
def compileAll (e : Engine σ) (force : Bool) : Except RequestError (List Nat) × Engine σ :=
  let (masters, e) := e.targets force
  compileEach masters e

/-- Queues masters one by one. One that has an active job waits for the next batch. -/
def compileOwners (immediate : Bool) :
    List Path → Engine σ → Except RequestError (List Nat) × Engine σ
  | [], e => (.ok [], e)
  | p :: rest, e =>
    match e.enqueue p immediate with
    | (.ok id, e) =>
      let (ids, e) := compileOwners immediate rest e
      (ids.map (id :: ·), e)
    | (.error (.alreadyQueued master), e) =>
      let (added, e) := e.park master
      compileOwners immediate rest (if added then e.persist else e)
    | (.error refusal, e) => (.error refusal, e)

/-- Compiles the masters that own a file. In the restricted mode they wait instead. -/
def compileFile (e : Engine σ) (p : Path) (immediate : Bool) :
    Except RequestError (List Nat) × Engine σ :=
  match e.graph.file? p with
  | none => (.error (.unknownFile p), e)
  | some f =>
    let masters := if f.isMaster then [p] else f.masters
    if masters.isEmpty then (.error (.notAMaster p), e)
    else if e.mode == .restricted then
      let (parked, e) := e.parkAll masters
      (.ok [], if parked then e.persist else e)
    else compileOwners immediate masters e

/-- Drops every queued and compiling job and a deferred entry into the restricted mode. Finished
jobs stay. Returns how many were dropped. -/
def cancelAll (e : Engine σ) : Nat × Engine σ :=
  let cancelled := e.cancelWorker
  let kept := cancelled.jobs.filter Job.isComplete
  let dropped := cancelled.jobs.filter fun j => !j.isComplete
  let e := { cancelled with jobs := kept, deferredEntry := false }.noteAll
    (dropped.map fun j : Job => .dropped j.id)
  let e := if e.isBusy then e else e.releaseHost
  (dropped.length, e.persist)

/-- Stops the outstanding worker. The snapshot stays as it is, so that a later run takes the work
up again. -/
def shutdown (e : Engine σ) : Engine σ :=
  e.cancelWorker

/-- Builds the graph again. Refused while a batch is outstanding. -/
def rebuildGraph (e : Engine σ) : Except RequestError Unit × Engine σ :=
  if e.isBusy then (.error .compileInProgress, e)
  else
    match e.graph.rebuild e.site with
    | (failure, reading) =>
      let e := { e with graph := reading.graph, site := reading.storage }.logAll reading.log
      match failure with
      | some cause => (.error (.storage cause), e)
      | none => (.ok (), e)

/-- Builds the graph again if it no longer fits the disk. Says whether it did. -/
def rebuildIfRequired (e : Engine σ) : Except RequestError Bool × Engine σ :=
  if e.graph.requiresRebuild e.site then
    match e.rebuildGraph with
    | (.ok (), e) => (.ok true, e)
    | (.error refusal, e) => (.error refusal, e)
  else (.ok false, e)

end Engine

end StoryBuild
