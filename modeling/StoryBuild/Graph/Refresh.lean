import StoryBuild.Graph.Discovery

namespace StoryBuild.FileGraph

variable {σ : Type} [Storage σ]

/-- The masters recorded for a path. -/
def recordedMasters (g : FileGraph) (p : Path) : List Path :=
  ((g.file? p).map SourceFile.masters).getD []

/-- The graph after a file changed, appeared or vanished, or nothing if the path is no source file
that is or was there. -/
def reread (g : FileGraph) (s : σ) (p : Path) : Option (FileGraph × σ) :=
  if Storage.isFile s (g.absolute p) then
    if g.isTracked p then some (g.reparse s p)
    else if g.options.isSource p then some ((g.insert { path := p }).reparse s p)
    else none
  else if g.isTracked p then some (g.erase p, s)
  else none

/-- The masters of the new graph that own a path now or owned it before. -/
def affected (old new : FileGraph) (p : Path) : List Path :=
  (new.files.filter fun f =>
    f.isMaster && ((old.recordedMasters p).any (· == f.path) ||
      (new.recordedMasters p).any (· == f.path))).map SourceFile.path

/-- Brings one path up to date. Returns the masters to compile again. -/
def refresh (g : FileGraph) (s : σ) (p : Path) : List Path × Reading σ :=
  match g.reread s p with
  | none => ([], ⟨g, s, []⟩)
  | some (read, s') =>
    let unread := if Storage.isFile s (g.absolute p) then g.reparseLog s p else []
    let new := read.relink
    (g.affected new p, ⟨new, s', unread ++ new.linkLog⟩)

end StoryBuild.FileGraph
