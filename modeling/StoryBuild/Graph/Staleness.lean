import StoryBuild.Graph.Ownership
import StoryBuild.Storage

namespace StoryBuild.FileGraph

variable {σ : Type} [Storage σ]

/-- Whether one of some files is newer than a time. A file whose time cannot be read is judged by
the time on record. -/
def anyNewer (g : FileGraph) (time : Nat) : σ → List Path → Bool × σ
  | s, [] => (false, s)
  | s, p :: rest =>
    let (read, s) := Storage.modified s (g.absolute p)
    let known := read.toOption <|> ((g.file? p).bind SourceFile.modified)
    if known.any (time < ·) then (true, s) else anyNewer g time s rest

/-- Whether a master has to be compiled. -/
def isStale (g : FileGraph) (s : σ) (master : SourceFile) : Bool × σ :=
  if !master.unhandled.isEmpty then (true, s)
  else
    match Storage.modified s (g.absolute (g.artifactPath master.path)) with
    | (.error _, s) => (true, s)
    | (.ok time, s) => g.anyNewer time s (g.family master.path)

/-- The paths of the stale ones among some masters. -/
def staleAmong (g : FileGraph) : σ → List SourceFile → List Path × σ
  | s, [] => ([], s)
  | s, f :: rest =>
    let (stale, s) := g.isStale s f
    let (others, s) := staleAmong g s rest
    (if stale then f.path :: others else others, s)

/-- The masters that have to be compiled, in order. -/
def staleMasters (g : FileGraph) (s : σ) : List Path × σ :=
  g.staleAmong s g.masterFiles

end StoryBuild.FileGraph
