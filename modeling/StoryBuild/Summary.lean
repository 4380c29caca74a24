import StoryBuild.Path.Basic

namespace StoryBuild

/-- The totals of one batch. -/
structure Summary where
  /-- The compiled masters in the order of their jobs. -/
  compiled : List Path := []
  /-- The masters that produced no artifact. -/
  failed : List Path := []
  errors : Nat := 0
  warnings : Nat := 0
  todos : Nat := 0
  /-- Failures of the compiler and timeouts. -/
  unhandled : Nat := 0
  /-- Whether the family of a compiled master carries an error at the end. -/
  hasErrors : Bool := false

/-- A batch without compiles. -/
def Summary.isEmpty (s : Summary) : Bool :=
  s.compiled.isEmpty

end StoryBuild
