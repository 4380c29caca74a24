import StoryBuild.Job
import StoryBuild.Json.Reader
import StoryBuild.Json.Writer
import StoryBuild.Text.Digit

namespace StoryBuild

/-- A job in a snapshot. -/
structure SavedJob where
  path : String
  state : JobState
  /-- The time of day of the start, in milliseconds. -/
  startTime : Option Nat
  deriving DecidableEq

/-- The waiting masters and the active jobs, each in order. -/
structure Snapshot where
  pending : List String := []
  active : List SavedJob := []
  deriving DecidableEq

namespace SavedJob

/-- The record of a job. -/
def toJson (j : SavedJob) : Json :=
  .object [("path", .text j.path), ("state", .text j.state.name),
    ("startTime", (j.startTime.map Json.nat).getD .null)]

end SavedJob

/-- A text that is used. -/
def textOf? : Json → Option String
  | .text s => some s
  | _ => none

/-- Start times lie below this bound. -/
def startTimeBound : Nat := Nat.pow 2 64

/-- A start time as it is kept. One that does not fit is left out. -/
def savedTime (millis : Nat) : Option Nat :=
  if millis < startTimeBound then some millis else none

/-- A start time: nothing, or a whole number without sign that fits. -/
def startTimeOf? : Json → Option (Option Nat)
  | .null => some none
  | .number literal =>
    match readDecimal literal with
    | some n => if n < startTimeBound then some (some n) else none
    | none => none
  | _ => none

/-- The stage with a given name. -/
def stateNamed? (name : String) : Option JobState :=
  [JobState.queued, .compiling, .complete].find? fun state => state.name == name

/-- A stage: its name, or a record with that name and nothing in it. -/
def stateOf? : Json → Option JobState
  | .text name => stateNamed? name
  | .object [(name, .null)] => stateNamed? name
  | _ => none

/-- A field of a record, refused if it is repeated. The inner option is empty for a missing
field. -/
def field? (key : String) (fields : List (String × Json)) : Option (Option Json) :=
  match fields.filter fun f => f.1 == key with
  | [] => some none
  | [f] => some (some f.2)
  | _ => none

/-- A job from its three values. -/
def SavedJob.ofValues? (path state : Json) (startTime : Option Json) : Option SavedJob := do
  pure ⟨← textOf? path, ← stateOf? state, ← startTimeOf? (startTime.getD .null)⟩

/-- A job from a record or a list. -/
def SavedJob.ofJson? : Json → Option SavedJob
  | .object fields => do
    let path ← field? "path" fields
    let state ← field? "state" fields
    let startTime ← field? "startTime" fields
    SavedJob.ofValues? (← path) (← state) startTime
  | .array [path, state] => SavedJob.ofValues? path state none
  | .array [path, state, startTime] => SavedJob.ofValues? path state (some startTime)
  | _ => none

/-- A list whose items can all be read. A missing list is empty. -/
def listOf? {α : Type} (item? : Json → Option α) : Option Json → Option (List α)
  | none => some []
  | some (.array items) => items.mapM item?
  | some _ => none

namespace Snapshot

/-- The record of a snapshot. -/
def toJson (s : Snapshot) : Json :=
  .object [("pendingPaths", .array (s.pending.map Json.text)),
    ("activeJobs", .array (s.active.map SavedJob.toJson))]

/-- A snapshot from its two lists. -/
def ofLists? (pending active : Option Json) : Option Snapshot := do
  pure ⟨← listOf? textOf? pending, ← listOf? SavedJob.ofJson? active⟩

/-- A snapshot from a record or a list. The fields of a record may come in any order, and unknown
ones are passed over. -/
def ofJson? : Json → Option Snapshot
  | .object fields => do
    ofLists? (← field? "pendingPaths" fields) (← field? "activeJobs" fields)
  | .array [] => ofLists? none none
  | .array [pending] => ofLists? (some pending) none
  | .array [pending, active] => ofLists? (some pending) (some active)
  | _ => none

/-- The text of a snapshot on disk. -/
def render (s : Snapshot) : String :=
  s.toJson.render

/-- The snapshot that a text holds. -/
def parse (text : String) : Option Snapshot :=
  (Json.parse text).bind ofJson?

/-- Whether no work is left. -/
def isEmpty (s : Snapshot) : Bool :=
  s.pending.isEmpty && s.active.isEmpty

/-- The masters with work left, each once: active jobs first, then waiting ones. -/
def resume (s : Snapshot) : List String :=
  (s.active.map SavedJob.path ++ s.pending).foldl
    (fun out p => if p ∈ out then out else out ++ [p]) []

end Snapshot

/-- Saves a snapshot. -/
def Snapshot.save {σ : Type} [Storage σ] (snapshot : Snapshot) (s : σ) (p : Path) :
    Except IoError Unit × σ :=
  Storage.write s p snapshot.render.toUTF8

/-- Why a snapshot cannot be loaded. -/
inductive SnapshotError where
  | unreadable (cause : IoError)
  | malformed

/-- Loads a snapshot. A missing file is no error. -/
def Snapshot.load {σ : Type} [Storage σ] (s : σ) (p : Path) :
    Except SnapshotError (Option Snapshot) :=
  if Storage.isFile s p then
    match Storage.readText s p with
    | .error e => .error (.unreadable e)
    | .ok text =>
      match Snapshot.parse text with
      | some snapshot => .ok (some snapshot)
      | none => .error .malformed
  else .ok none

end StoryBuild
