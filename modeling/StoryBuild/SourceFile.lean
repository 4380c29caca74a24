import StoryBuild.Diagnostic
import StoryBuild.Path.Basic

namespace StoryBuild

/-- What is wrong with the place of a file among the includes. -/
inductive Issue where
  /-- An include names a file that is not tracked. -/
  | missing (raw : String)
  /-- An include leaves the project or is absolute. -/
  | outside (raw : String)
  /-- The file includes itself. -/
  | ownInclude (raw : String)
  /-- Two files include each other; the include does not count. -/
  | circular (other : Path)
  /-- The file lies on a longer cycle of includes. -/
  | cycle (members : List Path)
  /-- The file is included, but no master is above it. -/
  | noMaster

/-- The wording of an issue. -/
def Issue.message : Issue → String
  | missing raw => s!"included file '{raw}' was not found"
  | outside raw => s!"included file '{raw}' is outside the project"
  | ownInclude raw => s!"file includes itself via '{raw}'"
  | circular other => s!"circular include: this file and {other.text} include each other"
  | cycle members => "include cycle: " ++ " -> ".intercalate (members.map Path.text)
  | noMaster => "file is included but no master file owns it"

/-- Whether an issue comes from an include of the file itself, not from the files above it. -/
def Issue.isLocal : Issue → Bool
  | cycle _ => false
  | noMaster => false
  | _ => true

/-- One tracked source file. Its path is seen from the project root. -/
structure SourceFile where
  path : Path
  /-- The includes as they are written. -/
  rawIncludes : List String := []
  /-- The tracked files that are included. -/
  includes : List Path := []
  /-- The files that include this one. -/
  parents : List Path := []
  /-- The files without parents from which this one is reached. -/
  masters : List Path := []
  modified : Option Nat := none
  compiled : Option Nat := none
  artifact : Option Path := none
  errors : List Diagnostic := []
  warnings : List Diagnostic := []
  todos : List Diagnostic := []
  /-- Failures of the compiler itself. -/
  unhandled : List String := []
  issues : List Issue := []

namespace SourceFile

/-- A file that nobody includes. -/
def isMaster (f : SourceFile) : Bool :=
  f.parents.isEmpty

/-- The first of the masters, which collects the diagnostics of a file. -/
def primaryMaster? (f : SourceFile) : Option Path :=
  f.masters.head?

/-- Whether a path is the primary master of a file. -/
def isOwnedBy (f : SourceFile) (master : Path) : Bool :=
  f.primaryMaster?.any (· == master)

/-- A file that is included but has no master cannot be compiled. -/
def isInvalid (f : SourceFile) : Bool :=
  !f.parents.isEmpty && f.masters.isEmpty

/-- Whether the last compile left an error. -/
def hasErrors (f : SourceFile) : Bool :=
  !f.errors.isEmpty || !f.unhandled.isEmpty

/-- Forgets what compiles have said. -/
def clearDiagnostics (f : SourceFile) : SourceFile :=
  { f with errors := [], warnings := [], todos := [], unhandled := [] }

/-- Adds a diagnostic to the list of its severity. -/
def addDiagnostic (f : SourceFile) (d : Diagnostic) : SourceFile :=
  match d.severity with
  | .error => { f with errors := f.errors ++ [d] }
  | .warning => { f with warnings := f.warnings ++ [d] }
  | .author => { f with todos := f.todos ++ [d] }

end SourceFile

end StoryBuild
