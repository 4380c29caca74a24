import StoryBuild.Graph.Basic
import StoryBuild.Include
import StoryBuild.Log

namespace StoryBuild.FileGraph

/-- The paths that the includes of a tracked file name, tracked or not. -/
def rawTargets (g : FileGraph) (p : Path) : List Path :=
  match g.file? p with
  | none => []
  | some f => f.rawIncludes.filterMap p.dirOf.resolveInclude

/-- The tracked file that an include of `source` reaches, or why it reaches none. -/
def resolveRaw (g : FileGraph) (source : Path) (raw : String) : Except Issue Path :=
  match source.dirOf.resolveInclude raw with
  | none => .error (.outside raw)
  | some target =>
    if target == source then .error (.ownInclude raw)
    else if !g.isTracked target then .error (.missing raw)
    else if (g.rawTargets target).any (· == source) then .error (.circular target)
    else .ok target

/-- Adds a path at the end unless it is there. -/
def addNew (paths : List Path) (p : Path) : List Path :=
  if paths.any (· == p) then paths else paths ++ [p]

/-- The includes of a file that count, each once, in the order of the text. -/
def edgesOf (g : FileGraph) (f : SourceFile) : List Path :=
  (f.rawIncludes.filterMap fun raw => (g.resolveRaw f.path raw).toOption).foldl addNew []

/-- The issues of the includes of a file, in the order of the text. -/
def issuesOf (g : FileGraph) (f : SourceFile) : List Issue :=
  f.rawIncludes.filterMap fun raw =>
    match g.resolveRaw f.path raw with
    | .ok _ => none
    | .error issue => some issue

/-- A record with its includes resolved. -/
def resolved (g : FileGraph) (f : SourceFile) : SourceFile :=
  { f with includes := g.edgesOf f, issues := g.issuesOf f }

/-- Resolves the includes of one file. -/
def resolveAt (g : FileGraph) (p : Path) : FileGraph :=
  g.update p g.resolved

/-- Resolves the includes of every file. -/
def resolveAll (g : FileGraph) : FileGraph :=
  g.mapFiles g.resolved

/-- The warnings for the includes of a file that do not count. -/
def issueLog (issues : List Issue) : List LogLine :=
  (issues.filter Issue.isLocal).map fun issue => ⟨.graph, .warn, issue.message⟩

end StoryBuild.FileGraph
