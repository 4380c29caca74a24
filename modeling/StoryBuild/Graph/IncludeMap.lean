import StoryBuild.Graph.Ownership

namespace StoryBuild

/-- One row: the including file, the include as written, and the included file on the disk. -/
structure IncludeRow where
  source : Path
  raw : String
  target : Path

namespace FileGraph

/-- The order of rows: by including file, then by text. -/
def rowBefore (a b : IncludeRow) : Bool :=
  ((compare a.source b.source).then (compare a.raw b.raw)).isLT

/-- Whether two rows stand for the same include. -/
def sameRow (a b : IncludeRow) : Bool :=
  a.source == b.source && a.raw == b.raw

/-- Puts a row in its place, instead of one for the same include. -/
def insertRow (row : IncludeRow) : List IncludeRow → List IncludeRow
  | [] => [row]
  | r :: rest =>
    if sameRow row r then row :: rest
    else if rowBefore row r then row :: r :: rest
    else r :: insertRow row rest

/-- The rows of one file, for the includes that name tracked files. -/
def rowsOf (g : FileGraph) (f : SourceFile) : List IncludeRow :=
  f.rawIncludes.filterMap fun raw =>
    match f.path.dirOf.resolveInclude raw with
    | some target =>
      if g.isTracked target then some ⟨f.path, trimText raw, g.absolute target⟩ else none
    | none => none

/-- The rows of the family of a master, in order. -/
def includeMap (g : FileGraph) (master : Path) : List IncludeRow :=
  let rows := (g.family master).flatMap fun p =>
    match g.file? p with
    | some f => g.rowsOf f
    | none => []
  rows.foldl (fun table row => insertRow row table) []

end FileGraph

end StoryBuild
