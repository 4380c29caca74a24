import StoryBuild.Graph.IncludeMap
import StoryBuild.Storage

namespace StoryBuild

/-- Everything a compiler needs for one master. -/
structure Request where
  job : Nat
  /-- The master, seen from the project root. -/
  master : Path
  input : Path
  output : Path
  source : String
  root : Path
  includes : List IncludeRow

/-- Why an include cannot be read. -/
inductive IncludeError where
  | outside (raw : String)
  | unreadable (raw : String) (cause : IoError)

/-- The message for an include that cannot be read. -/
def IncludeError.message : IncludeError → String
  | outside raw => s!"include '{raw}' is outside the project"
  | unreadable raw cause => s!"cannot resolve include '{raw}': {cause.message}"

/-- The file on the disk that an include means in an including file. -/
def resolveFor (root : Path) (table : List IncludeRow) (source : Path) (raw : String) :
    Option Path :=
  let raw := trimText raw
  match table.find? fun row => row.source == source && row.raw == raw with
  | some row => some row.target
  | none => (source.dirOf.resolveInclude raw).map root.join

/-- The text of an included file. -/
def readFor {σ : Type} [Storage σ] (s : σ) (root : Path) (table : List IncludeRow)
    (source : Path) (raw : String) : Except IncludeError String :=
  match resolveFor root table source raw with
  | none => .error (.outside (trimText raw))
  | some p => (Storage.readText s p).mapError (.unreadable (trimText raw))

/-- The text of a file that a request's source includes. -/
def Request.read {σ : Type} [Storage σ] (r : Request) (s : σ) (source : Path) (raw : String) :
    Except IncludeError String :=
  readFor s r.root r.includes source raw

end StoryBuild
