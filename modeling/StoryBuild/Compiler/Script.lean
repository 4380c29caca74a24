import StoryBuild.Compiler.Request
import StoryBuild.Include

namespace StoryBuild

/-- What a compile has produced. -/
structure Outcome where
  artifact : Option ByteArray := none
  lines : List String := []
  unhandled : List String := []

/-- The course of a compile. -/
inductive Script where
  | succeed (lines : List String) (artifact : ByteArray)
  | reject (lines : List String)
  | fail (lines : List String) (message : String)
  | crash (message : String)
  /-- Puts the texts of all includes after the source. -/
  | collect
  /-- Waits after some lines. A deaf compile does not hear that it is cancelled. -/
  | hang (lines : List String) (deaf : Bool) (next : Script)

/-- How far a compile has come: it is over, it waits, or it was cancelled while it waited. -/
inductive Progress where
  | finished (outcome : Outcome)
  | waiting (lines : List String) (deaf : Bool) (next : Script)
  | stopped

/-- The state of a collection of includes: what was asked for, the text so far, the texts still to
be searched, and the errors. -/
structure Collection where
  seen : List Path := []
  text : String
  todo : List (Path × String)
  errors : List String := []

/-- The line that reports an include that cannot be had. -/
def includeErrorLine (source : Path) (message : String) : String :=
  s!"ERROR: '{source.text}' line 1: {message}"

/-- Follows one include. A file is asked for once only. -/
def Collection.follow {σ : Type} [Storage σ] (s : σ) (r : Request) (source : Path)
    (c : Collection) (raw : String) : Collection :=
  match source.dirOf.resolveInclude raw with
  | none =>
    { c with
      errors := c.errors ++ [includeErrorLine source (IncludeError.outside raw).message] }
  | some target =>
    if c.seen.any (· == target) then c
    else
      let c := { c with seen := target :: c.seen }
      match r.read s source raw with
      | .ok body => { c with text := c.text ++ "\n" ++ body, todo := (target, body) :: c.todo }
      | .error e => { c with errors := c.errors ++ [includeErrorLine source e.message] }

/-- Searches text after text, the last found first. -/
def Collection.run {σ : Type} [Storage σ] (s : σ) (r : Request) : Nat → Collection → Collection
  | 0, c => c
  | steps + 1, c =>
    match c.todo with
    | [] => c
    | (source, text) :: todo =>
      Collection.run s r steps
        ((includesOf text).foldl (Collection.follow s r source) { c with todo })

/-- The source with the texts of all its includes, or the errors that were met. -/
def collectIncludes {σ : Type} [Storage σ] (s : σ) (r : Request) : Outcome :=
  let c := Collection.run s r (Storage.size s + 1)
    { text := r.source, todo := [(r.master, r.source)] }
  if c.errors = [] then { artifact := some c.text.toUTF8 } else { lines := c.errors }

/-- Plays a script after some lines. A compile on the calling thread does not wait; a cancelled one
stops where it would wait, unless it is deaf. -/
def Script.play {σ : Type} [Storage σ] (s : σ) (r : Request) (here cancelled : Bool) :
    List String → Script → Progress
  | before, succeed lines artifact =>
    .finished { artifact := some artifact, lines := before ++ lines }
  | before, reject lines => .finished { lines := before ++ lines }
  | before, fail lines message =>
    .finished { lines := before ++ lines, unhandled := [message] }
  | before, crash message =>
    .finished { lines := before, unhandled := ["compiler panicked: " ++ message] }
  | before, collect =>
    let o := collectIncludes s r
    .finished { o with lines := before ++ o.lines }
  | before, hang lines deaf next =>
    if here then play s r here cancelled (before ++ lines) next
    else if cancelled && !deaf then .stopped
    else .waiting (before ++ lines) deaf next

/-- What becomes of a compile that is handed to a worker: no worker can be had, for a reason in the
words of the operating system; the worker is lost on its way; or it enters the compiler. -/
inductive Handover where
  | refused (reason : String)
  | lost
  | taken
  deriving DecidableEq, Inhabited

/-- A storage with a compiler at work in it. A compile may leave traces in the storage. What becomes
of a compile that is handed to a worker, and how far it comes while the calling thread sleeps, is up
to the surroundings. -/
class Workshop (σ : Type) extends Storage σ where
  perform : σ → Request → Script × σ
  handOver : σ → Request → Handover := fun _ _ => .taken
  meanwhile : σ → Request → Progress → Progress × σ := fun s _ progress => (progress, s)

end StoryBuild
