import StoryBuild.Engine.Requests

namespace StoryBuild.Engine

variable {σ : Type} [Workshop σ]

/-- Takes one path up again: as a job, or as a waiting master in the restricted mode. -/
def restoreOne (state : List Nat × Engine σ) (raw : String) : List Nat × Engine σ :=
  let (ids, e) := state
  let p := Path.ofText raw
  if !e.graph.isMaster p then
    (ids, e.warn "persisted job no longer names a master file; dropping it")
  else if e.mode == .restricted then (ids, (e.park p).2)
  else
    match e.enqueue p false with
    | (.ok id, e) => (ids ++ [id], e)
    | (.error _, e) => (ids, e.warn "could not restore compile job")

/-- Takes the work of a snapshot up again. Returns the new jobs. -/
def restore (e : Engine σ) (s : Snapshot) : List Nat × Engine σ :=
  if s.isEmpty then ([], e)
  else
    let (ids, e) := s.resume.foldl restoreOne ([], e)
    (ids, e.persist)

/-- Loads the snapshot, if one is kept, and takes its work up again. -/
def loadAndRestore (e : Engine σ) : Except RequestError (List Nat) × Engine σ :=
  match e.options.statePath with
  | none => (.ok [], e)
  | some p =>
    match Snapshot.load e.site p with
    | .error (.unreadable cause) => (.error (.storage cause), e)
    | .error .malformed => (.error .malformedSnapshot, e)
    | .ok none => (.ok [], e)
    | .ok (some s) =>
      let (ids, e) := e.restore s
      (.ok ids, e)

end StoryBuild.Engine
