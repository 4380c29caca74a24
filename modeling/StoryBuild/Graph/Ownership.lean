import StoryBuild.Graph.Links

namespace StoryBuild.FileGraph

/-- Walks a graph depth first. The path on top of the stack is passed over if it was visited or is
not tracked; otherwise it is listed, and what follows it goes on the stack. -/
def walk (g : FileGraph) (next : SourceFile → List Path) :
    Nat → List Path → List Path → List Path
  | 0, _, _ => []
  | _, _, [] => []
  | steps + 1, visited, p :: stack =>
    if visited.any (· == p) then walk g next steps visited stack
    else
      match g.file? p with
      | none => walk g next steps (p :: visited) stack
      | some f => f.path :: walk g next steps (p :: visited) (next f ++ stack)

/-- More steps than a walk can take: one for its start and one for every edge. -/
def walkBound (g : FileGraph) (next : SourceFile → List Path) : Nat :=
  g.files.foldl (fun total f => total + (next f).length) 1

/-- The files reached from a path, in depth-first order. -/
def reach (g : FileGraph) (next : SourceFile → List Path) (start : Path) : List Path :=
  walk g next (g.walkBound next) [] [start]

/-- A file and the files that it includes, directly or not, in depth-first order. -/
def family (g : FileGraph) (start : Path) : List Path :=
  g.reach SourceFile.includes start

/-- The files that include a path, in order. -/
def parentsOf (g : FileGraph) (p : Path) : List Path :=
  (g.files.filter fun f => f.includes.any (· == p)).map SourceFile.path

/-- A graph with the parents of every file. -/
def withParents (g : FileGraph) : FileGraph :=
  g.mapFiles fun f => { f with parents := g.parentsOf f.path }

/-- The masters above a path, in order. -/
def mastersOf (g : FileGraph) (p : Path) : List Path :=
  let above := g.reach SourceFile.parents p
  (g.files.filter fun f => f.isMaster && above.any (· == f.path)).map SourceFile.path

/-- The files that reach a path and are reached from it, in order. -/
def circleOf (g : FileGraph) (p : Path) : List Path :=
  let below := g.family p
  (g.files.filter fun f =>
    below.any (· == f.path) && (g.family f.path).any (· == p)).map SourceFile.path

/-- The issues that come from the files above and below a file. -/
def ownershipIssues (g : FileGraph) (f : SourceFile) : List Issue :=
  let circle := g.circleOf f.path
  (if 1 < circle.length then [.cycle circle] else []) ++
    if f.isInvalid then [.noMaster] else []

/-- A record with its masters and the issues that follow from them. -/
def owned (g : FileGraph) (f : SourceFile) : SourceFile :=
  let f := { f with masters := g.mastersOf f.path }
  { f with issues := f.issues.filter Issue.isLocal ++ g.ownershipIssues f }

/-- Computes parents, masters and cycles anew. -/
def rebuildOwnership (g : FileGraph) : FileGraph :=
  let linked := g.withParents
  linked.mapFiles linked.owned

/-- Resolves all includes and computes ownership anew. -/
def relink (g : FileGraph) : FileGraph :=
  g.resolveAll.rebuildOwnership

/-- The circle that a file is the first member of. -/
def leadsCircle (f : SourceFile) : Bool :=
  f.issues.any fun
    | .cycle members => members.head?.any (· == f.path)
    | _ => false

/-- The warnings of a computation of ownership. -/
def ownershipLog (g : FileGraph) : List LogLine :=
  ((g.files.filter leadsCircle).map fun _ => ⟨.graph, .warn, "include cycle detected"⟩) ++
    g.files.filterMap fun f =>
      if f.isInvalid then some ⟨.graph, .warn, "file is included but has no master"⟩
      else if 1 < f.masters.length then
        some ⟨.graph, .warn, "file is owned by more than one master"⟩
      else none

/-- The warnings of linking the whole graph. -/
def linkLog (g : FileGraph) : List LogLine :=
  g.files.flatMap (fun f => issueLog f.issues) ++ g.ownershipLog

end StoryBuild.FileGraph
