import StoryBuild.CommandLine
import StoryBuild.Config
import StoryBuild.Console
import StoryBuild.DryRun
import StoryBuild.Engine.Loop
import StoryBuild.Shell.Launch
import StoryBuild.Watch
import StoryBuild.Workbench

namespace StoryBuild

/-- A loop and the milliseconds between its ticks. -/
structure Session where
  loop : EventLoop (Workbench DiskTree)
  pollInterval : Nat
  /-- What was logged before the engine began. -/
  opening : List LogLine := []

namespace Session

/-- The machine with the files. -/
def disk (s : Session) : DiskTree :=
  s.loop.engine.site.machine

/-- The log so far. -/
def log (s : Session) : List LogLine :=
  s.opening ++ traceLines s.loop.engine.trace ++ s.loop.engine.site.log.reverse

/-- Changes the engine. -/
def mapEngine (s : Session) (f : Engine (Workbench DiskTree) → Engine (Workbench DiskTree)) :
    Session :=
  { s with loop := { s.loop with engine := f s.loop.engine } }

/-- The number of steps of a given length that reach a distance. -/
def stepsOver (length distance : Nat) : Nat :=
  (distance + length - 1) / length

/-- Lets the time pass up to the first tick at which something can happen: the next one, or the one
by which the outstanding compile has ended or is over its time. -/
def rest (interval : Nat) (e : Engine (Workbench DiskTree)) : Engine (Workbench DiskTree) :=
  match e.inFlight.filter Worker.isWaiting, e.jobs.find? Job.isCompiling with
  | some _, some j =>
    let start := j.started.getD e.clock
    let ready := start + e.site.millis
    let late := start + e.options.timeout + 1
    let steps := max 1 (stepsOver interval (min ready late - e.clock))
    let e := { e with clock := e.clock + steps * interval }
    if ready ≤ e.clock then e.release none else e
  | _, _ => { e with clock := e.clock + interval }

/-- Whether nothing is left to be done. -/
def isIdle (s : Session) : Bool :=
  !s.loop.running || !s.loop.engine.isBusy

/-- Ticks until nothing is left to be done, or a condition holds. -/
def turnsUntil (stop : Session → Bool) : Nat → Session → Session
  | 0, s => s
  | n + 1, s =>
    let s := { s with loop := s.loop.tick }
    if s.isIdle || stop s then s
    else turnsUntil stop n (s.mapEngine (rest s.pollInterval))

/-- More ticks than the outstanding work takes: a job needs one to be started and collected, and
waiting masters make one more batch. -/
def tickBound (s : Session) : Nat :=
  4 * (s.loop.engine.jobs.length + s.loop.engine.abandoned.length +
    s.loop.engine.pending.size + 2)

/-- Ticks until nothing is left to be done. -/
def run (s : Session) : Session :=
  s.turnsUntil (fun _ => false) s.tickBound

/-- Whether a file has some content. -/
def holds (s : Session) (p : Path) (content : ByteArray) : Bool :=
  (s.disk.readBytes p).toOption.any (· == content)

/-- Ticks until a file has some content, for some milliseconds at most. Says whether it came to
that. -/
def awaitContent (s : Session) (millis : Nat) (p : Path) (content : ByteArray) : Bool × Session :=
  let deadline := s.loop.engine.clock + millis
  let late (s : Session) : Bool := deadline < s.loop.engine.clock
  let s :=
    if s.holds p content then s
    else s.turnsUntil (fun t => t.holds p content || late t) s.tickBound
  (s.holds p content && !late s, s)

/-- The sources among some paths of the disk, as paths of the project. -/
def sourcesAt (s : Session) (paths : List Path) : List Path :=
  let g := s.loop.engine.graph
  changedSources (s.disk.seenFrom g.root) g.options .change paths

/-- Changes the disk from outside and tells the loop about the sources among the touched paths. -/
def disturb (s : Session) (change : DiskTree → DiskTree) (touched : List Path) : Session :=
  let s := s.mapEngine fun e =>
    { e with site := { e.site with machine := change e.site.machine } }
  { s with loop := (s.sourcesAt touched).foldl (fun l p => l.handle (.changed p)) s.loop }

/-- Ends the session from outside. -/
def stop (s : Session) : Session :=
  { s with loop := s.loop.handle .stop }

end Session

end StoryBuild
