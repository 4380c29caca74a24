import StoryBuild.MemoryDisk
import StoryBuild.Graph.Outcome
import StoryBuild.Graph.Refresh

namespace StoryBuild

/-- A change of one file, whose path is seen from the project root. -/
inductive Edit where
  | write (p : Path) (content : ByteArray)
  | delete (p : Path)

/-- The file that is changed. -/
def Edit.path : Edit → Path
  | write p _ => p
  | delete p => p

/-- The disk after a change of one file below a root. -/
def MemoryDisk.edit (root : Path) (d : MemoryDisk) : Edit → MemoryDisk
  | .write p content => d.addFile (root.join p) content
  | .delete p => d.remove (root.join p)

/-- The places above a relative path, the base first. -/
def Path.above (p : Path) : List Path :=
  (List.range p.parts.length).map fun n => ofParts (p.parts.take n)

/-- Whether no file comes to stand above another: none is written below a file, and what is
written or deleted is no directory, unless one that lists nothing any more. Directories stay when
their files are deleted, and a file in place of one that lists others would cut these off. -/
def MemoryDisk.Admits (root : Path) (d : MemoryDisk) (e : Edit) : Prop :=
  (Storage.readDir d (root.join e.path)).toOption.getD [] = [] ∧
    match e with
    | .write p _ => ∀ q ∈ p.above, Storage.isFile d (root.join q) = false
    | .delete _ => True

instance (root : Path) (d : MemoryDisk) : (e : Edit) → Decidable (d.Admits root e)
  | .write p _ => inferInstanceAs <| Decidable <|
      (Storage.readDir d (root.join p)).toOption.getD [] = [] ∧
        ∀ q ∈ p.above, Storage.isFile d (root.join q) = false
  | .delete p => inferInstanceAs <| Decidable <|
      (Storage.readDir d (root.join p)).toOption.getD [] = [] ∧ True

/-- Whether a change is admitted, of a file with a normal path. -/
def MemoryDisk.Allows (root : Path) (d : MemoryDisk) (e : Edit) : Prop :=
  e.path.normalize = some e.path ∧ d.Admits root e

/-- The disk after many changes. -/
def MemoryDisk.edits (root : Path) (d : MemoryDisk) (es : List Edit) : MemoryDisk :=
  es.foldl (edit root) d

/-- Whether each of many changes is admitted in its turn. -/
def MemoryDisk.AllowsAll (root : Path) : MemoryDisk → List Edit → Prop
  | _, [] => True
  | d, e :: es => d.Allows root e ∧ AllowsAll root (d.edit root e) es

/-- A graph and the disk that it is about. -/
structure Project where
  graph : FileGraph
  disk : MemoryDisk

namespace Project

/-- What happens to a project. -/
inductive Step where
  | edit (e : Edit)
  | outcome (master : Path) (diagnostics : List Diagnostic) (unhandled : List String)
      (artifact : Option Path) (time : Nat)
  | refresh (p : Path)
  | rebuild

/-- A graph that was read from a disk, with the disk. -/
def ofReading (reading : FileGraph.Reading MemoryDisk) : Project :=
  ⟨reading.graph, reading.storage⟩

/-- The project after one step. -/
def step (project : Project) : Step → Project
  | .edit e => { project with disk := project.disk.edit project.graph.root e }
  | .outcome master diagnostics unhandled artifact time =>
    { project with
      graph := project.graph.applyOutcome master diagnostics unhandled artifact time }
  | .refresh p => ofReading (project.graph.refresh project.disk p).2
  | .rebuild => ofReading (project.graph.rebuild project.disk).2

/-- The project after many steps. -/
def run (project : Project) (steps : List Step) : Project :=
  steps.foldl step project

/-- Whether a step is about a normal path, and is admitted if it is a change. -/
def Allows (project : Project) : Step → Prop
  | .edit e => project.disk.Allows project.graph.root e
  | .outcome .. => True
  | .refresh p => p.normalize = some p
  | .rebuild => True

/-- Whether each of many steps is allowed in its turn. -/
def AllowsAll : Project → List Step → Prop
  | _, [] => True
  | project, s :: steps => project.Allows s ∧ AllowsAll (project.step s) steps

/-- Whether a step brings the graph up to date with a path. -/
def Step.Renews (p : Path) : Step → Prop
  | .refresh q => p = q
  | .rebuild => True
  | _ => False

/-- Whether a step reads the disk. -/
def Step.Rereads (s : Step) : Prop :=
  ∃ p, s.Renews p

/-- Whether the graph is brought up to date with every changed path after its last change. -/
def CatchUp : List Step → Prop
  | [] => True
  | .edit e :: steps => (∃ s ∈ steps, s.Renews e.path) ∧ CatchUp steps
  | _ :: steps => CatchUp steps

end Project

end StoryBuild
