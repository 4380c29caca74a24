import StoryBuild.Graph.Ownership
import StoryBuild.Storage

namespace StoryBuild.FileGraph

variable {σ : Type} [Storage σ]

/-- Sorts what a directory holds into directories to walk and source files. -/
def sortEntries (g : FileGraph) (s : σ) (entries : List Path) : List Path × List Path :=
  let below := entries.filterMap fun p => (g.root.stripPrefix? p).map fun rel => (p, rel)
  let dirs := below.filter fun e =>
    Storage.isDir s e.1 && !(e.2.fileName?.any fun name => name.startsWith ".")
  let sources := below.filter fun e => !Storage.isDir s e.1 && g.options.isSource e.2
  (dirs.map Prod.fst, sources.map Prod.snd)

/-- Walks directories, last found first, and collects the source files in them. -/
def scanFrom (g : FileGraph) (s : σ) : Nat → List Path → Except IoError (List Path)
  | 0, _ => .ok []
  | _, [] => .ok []
  | steps + 1, dir :: stack => do
    let entries ← Storage.readDir s dir
    let (dirs, sources) := g.sortEntries s entries
    let rest ← scanFrom g s steps (dirs.reverse ++ stack)
    pure (sources ++ rest)

/-- The source files on the disk, in order. -/
def scan (g : FileGraph) (s : σ) : Except IoError (List Path) :=
  (g.scanFrom s (Storage.size s) [g.root]).map fun found =>
    found.mergeSort fun a b => !b.before a

/-- Reads a modification time with a second try. -/
def modifiedTwice (s : σ) (p : Path) : Except IoError Nat × σ :=
  match Storage.modified s p with
  | (.ok time, s) => (.ok time, s)
  | (.error _, s) => Storage.modified s p

/-- The artifact of a path, if one is on the disk. -/
def artifactOnDisk (g : FileGraph) (s : σ) (p : Path) : Option Path :=
  let artifact := g.artifactPath p
  if Storage.isFile s (g.absolute artifact) then some artifact else none

/-- What a discovery has added and what it had to skip. -/
structure Found where
  added : List Path := []
  skipped : List Path := []

/-- Starts to track a path that was found, unless it is tracked. -/
def importFile (state : FileGraph × σ × Found) (p : Path) : FileGraph × σ × Found :=
  let (g, s, found) := state
  if g.isTracked p then (g, s, found)
  else
    match modifiedTwice s (g.absolute p) with
    | (.ok time, s) =>
      (g.insert { path := p, modified := some time, artifact := g.artifactOnDisk s p }, s,
        { found with added := found.added ++ [p] })
    | (.error _, s) => (g, s, { found with skipped := found.skipped ++ [p] })

/-- Tracks the source files on the disk that are not tracked yet. -/
def discover (g : FileGraph) (s : σ) : Except IoError (FileGraph × σ × Found) :=
  (g.scan s).map fun found => found.foldl importFile (g, s, {})

/-- The warnings of a discovery. -/
def Found.log (found : Found) : List LogLine :=
  found.skipped.map fun _ => ⟨.graph, .warn, "could not import source file; skipping it"⟩

/-- The includes that a file on the disk has written in it. -/
def readIncludes (g : FileGraph) (s : σ) (p : Path) : Except IoError (List String) :=
  (Storage.readText s (g.absolute p)).map includesOf

/-- Reads a file again. A file that cannot be read counts as one without includes. -/
def reparse (g : FileGraph) (s : σ) (p : Path) : FileGraph × σ :=
  let rawIncludes := (g.readIncludes s p).toOption.getD []
  let (time, s) := Storage.modified s (g.absolute p)
  (g.update p fun f => { f with rawIncludes, modified := time.toOption <|> f.modified }, s)

/-- The warning for a file that cannot be read. -/
def reparseLog (g : FileGraph) (s : σ) (p : Path) : List LogLine :=
  match g.readIncludes s p with
  | .ok _ => []
  | .error _ => [⟨.graph, .warn, "could not read source file"⟩]

/-- Reads some files again. -/
def reparseAll (g : FileGraph) (s : σ) (paths : List Path) : FileGraph × σ :=
  paths.foldl (fun state p => state.1.reparse state.2 p) (g, s)

/-- Stops tracking the files that are gone from the disk. -/
def prune (g : FileGraph) (s : σ) : FileGraph :=
  { g with files := g.files.filter fun f => Storage.isFile s (g.absolute f.path) }

/-- A graph with the storage it was read from and the warnings on the way. -/
structure Reading (σ : Type) where
  graph : FileGraph
  storage : σ
  log : List LogLine

/-- Brings the whole graph up to date with the disk. What compiles have said is kept. -/
def rebuild (g : FileGraph) (s : σ) : Option IoError × Reading σ :=
  let kept := g.prune s
  match kept.discover s with
  | .error e => (some e, ⟨kept, s, []⟩)
  | .ok (g, s, found) =>
    let unread := g.paths.flatMap (g.reparseLog s)
    let (g, s) := g.reparseAll s g.paths
    let g := g.relink
    (none, ⟨g, s, found.log ++ unread ++ g.linkLog⟩)

/-- Builds the graph of the files below a root. -/
def build (root : Path) (options : GraphOptions) (s : σ) : Except IoError (Reading σ) :=
  match (empty root options).rebuild s with
  | (some e, _) => .error e
  | (none, reading) => .ok reading

end StoryBuild.FileGraph
