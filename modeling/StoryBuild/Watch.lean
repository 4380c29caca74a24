import StoryBuild.Graph.Basic

namespace StoryBuild

/-- What happened to some paths. -/
inductive ChangeKind where
  | access
  | change
  deriving DecidableEq

/-- Puts a path in its place in an ordered list, once. -/
def insertPath (p : Path) : List Path → List Path
  | [] => [p]
  | q :: rest =>
    if p == q then q :: rest
    else if p.before q then p :: q :: rest
    else q :: insertPath p rest

/-- The source files that a change touches, as paths of the project, in order and each once. How
a path of the disk is seen from the project is given. -/
def changedSources (locate : Path → Option Path) (options : GraphOptions) (kind : ChangeKind)
    (paths : List Path) : List Path :=
  match kind with
  | .access => []
  | .change =>
    ((paths.filterMap locate).filter options.isSource).foldl (fun out p => insertPath p out) []

/-- How a path that is not on the disk is seen from a root. -/
def locateBelow (root p : Path) : Option Path :=
  (Path.stripPrefix? root p).bind Path.normalize

end StoryBuild
