import StoryBuild.Engine.Basic
import StoryBuild.LogFilter

namespace StoryBuild

/-- The log lines about a notice to the host. -/
def HostEvent.lines : HostEvent → List LogLine
  | deferred => [⟨.host, .info, "restricted mode deferred until the current batch finishes"⟩]
  | enterRestricted => [⟨.host, .info, "entering restricted mode"⟩]
  | stackCompleted _ =>
    [⟨.engine, .info, "batch drained"⟩, ⟨.host, .info, "compilation stack completed"⟩]
  | _ => []

/-- The log lines about something that the engine did. -/
def Event.lines : Event → List LogLine
  | host e => e.lines
  | started _ => [⟨.engine, .info, "compile job queued"⟩, ⟨.engine, .debug, "job compiling"⟩]
  | applied _ => [⟨.engine, .info, "job complete"⟩]
  | log line => [line]
  | _ => []

/-- The log lines of a trace. The trace has its latest event first. -/
def traceLines (trace : List Event) : List LogLine :=
  trace.reverse.flatMap Event.lines

/-- The filter of a run: the level asked for, or the filter of the surroundings if it can be read,
or else the informative level. -/
def LogFilter.choose (level : Option LogLevel) (surroundings : Option String) : LogFilter :=
  match level with
  | some level => upTo level
  | none => ((surroundings.map trimText).bind parse).getD (upTo .info)

/-- The names of the levels of the lines that are shown, in alphabetical order and each once. -/
def LogFilter.shownLevels (f : LogFilter) (lines : List LogLine) : List String :=
  let shown := lines.filter f.shows
  ((LogLevel.all.filter fun l => shown.any (·.level == l)).map LogLevel.name).mergeSort
    fun a b => a ≤ b

end StoryBuild
