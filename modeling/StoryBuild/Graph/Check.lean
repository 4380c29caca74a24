import StoryBuild.Graph.Discovery

namespace StoryBuild.FileGraph

variable {σ : Type} [Storage σ]

/-- A contradiction between the graph and the disk or inside the graph. -/
inductive Problem where
  | vanished (p : Path)
  | untracked (p target : Path)
  | missingParent (p target : Path)
  | appeared (p : Path) (raw : String)
  | staleParent (p parent : Path)

/-- The wording of a problem. -/
def Problem.message : Problem → String
  | vanished p => s!"{p.text} no longer exists"
  | untracked p target => s!"{p.text} includes untracked file {target.text}"
  | missingParent p target => s!"{target.text} is missing parent edge from {p.text}"
  | appeared p raw => s!"{p.text} includes {raw}, which exists now"
  | staleParent p parent => s!"{p.text} lists stale parent {parent.text}"

/-- What is wrong with an include edge. -/
def edgeProblem? (g : FileGraph) (p target : Path) : Option Problem :=
  match g.file? target with
  | none => some (.untracked p target)
  | some child => if child.parents.any (· == p) then none else some (.missingParent p target)

/-- A missing include whose file is there now. -/
def issueProblem? (g : FileGraph) (s : σ) (p : Path) : Issue → Option Problem
  | .missing raw =>
    match p.dirOf.resolveInclude raw with
    | some target => if Storage.isFile s (g.absolute target) then some (.appeared p raw) else none
    | none => none
  | _ => none

/-- A parent that does not include the file. -/
def parentProblem? (g : FileGraph) (p parent : Path) : Option Problem :=
  if (g.file? parent).any fun f => f.includes.any (· == p) then none
  else some (.staleParent p parent)

/-- What is wrong with one file. -/
def problemsAt (g : FileGraph) (s : σ) (f : SourceFile) : List Problem :=
  (if Storage.isFile s (g.absolute f.path) then [] else [.vanished f.path]) ++
    f.includes.filterMap (g.edgeProblem? f.path) ++
    f.issues.filterMap (g.issueProblem? s f.path) ++
    f.parents.filterMap (g.parentProblem? f.path)

/-- All problems, file by file. -/
def validate (g : FileGraph) (s : σ) : List Problem :=
  g.files.flatMap (g.problemsAt s)

/-- Whether the graph has to be built again. -/
def requiresRebuild (g : FileGraph) (s : σ) : Bool :=
  !(g.validate s).isEmpty

end StoryBuild.FileGraph
