import StoryBuild.SourceFile
import StoryBuild.Path.Normal
import StoryBuild.Path.Extension

namespace StoryBuild

/-- How source files are told from others and where compiled stories go. -/
structure GraphOptions where
  /-- The extension of source files, without the dot. -/
  extension : String
  /-- The paths that are never tracked. -/
  excluded : Path → Bool := fun _ => false
  /-- The directory for artifacts; without it they stand beside their masters. -/
  outputDir : Option Path := none

/-- Whether a path in the project is a source file: it has the extension in either case, no hidden
name, and is not excluded. -/
def GraphOptions.isSource (o : GraphOptions) (p : Path) : Bool :=
  (p.extension?.any fun e => e.toList.map Char.toLower == o.extension.toList.map Char.toLower) &&
    !p.isHidden && !o.excluded p

/-- Where the artifact of a master goes, seen from the project root. -/
def GraphOptions.artifactPath (o : GraphOptions) (master : Path) : Path :=
  let file := master.withExtension "json"
  match o.outputDir with
  | some dir => dir.join file
  | none => file

/-- The tracked files below a root, in the order of their paths and with one record for each. -/
structure FileGraph where
  root : Path
  options : GraphOptions
  files : List SourceFile

namespace FileGraph

/-- A graph that tracks nothing yet. -/
def empty (root : Path) (options : GraphOptions) : FileGraph :=
  ⟨root, options, []⟩

/-- A path of the project as a path on the disk. -/
def absolute (g : FileGraph) (p : Path) : Path :=
  g.root.join p

/-- The record of a path. -/
def file? (g : FileGraph) (p : Path) : Option SourceFile :=
  g.files.find? (·.path == p)

/-- Whether a path is tracked. -/
def isTracked (g : FileGraph) (p : Path) : Bool :=
  g.files.any (·.path == p)

/-- The tracked paths, in order. -/
def paths (g : FileGraph) : List Path :=
  g.files.map SourceFile.path

/-- Puts a record in its place by the order of paths. -/
def insertByPath (f : SourceFile) : List SourceFile → List SourceFile
  | [] => [f]
  | h :: rest =>
    if f.path == h.path then f :: rest
    else if f.path.before h.path then f :: h :: rest
    else h :: insertByPath f rest

/-- Tracks a file. -/
def insert (g : FileGraph) (f : SourceFile) : FileGraph :=
  { g with files := insertByPath f g.files }

/-- Stops tracking a path. -/
def erase (g : FileGraph) (p : Path) : FileGraph :=
  { g with files := g.files.filter fun f => !(f.path == p) }

/-- Changes every record. -/
def mapFiles (g : FileGraph) (h : SourceFile → SourceFile) : FileGraph :=
  { g with files := g.files.map h }

/-- Changes the record of one path. -/
def update (g : FileGraph) (p : Path) (h : SourceFile → SourceFile) : FileGraph :=
  g.mapFiles fun f => if f.path == p then h f else f

/-- The files that nobody includes, in order. -/
def masterFiles (g : FileGraph) : List SourceFile :=
  g.files.filter SourceFile.isMaster

/-- Whether a path is tracked and nobody includes it. -/
def isMaster (g : FileGraph) (p : Path) : Bool :=
  (g.file? p).any SourceFile.isMaster

/-- Where the artifact of a master goes. -/
def artifactPath (g : FileGraph) (master : Path) : Path :=
  g.options.artifactPath master

end FileGraph

end StoryBuild
