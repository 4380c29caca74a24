namespace StoryBuild

/-- One token of a glob. -/
inductive GlobToken where
  | literal (c : Char)
  | any
  | many
  /-- Any directories in front. -/
  | leading
  /-- Anything below a directory. -/
  | trailing
  /-- Any directories in between. -/
  | between
  | oneOf (negated : Bool) (ranges : List (Char × Char))
  | choice (branches : List (List GlobToken))
  deriving Inhabited

/-- Why a text is no glob. -/
inductive GlobFault where
  | unclosedClass
  | invalidRange (first last : Char)
  | unopenedGroup
  | unclosedGroup
  | danglingEscape
  deriving DecidableEq

/-- The wording of a fault. -/
def GlobFault.message : GlobFault → String
  | unclosedClass => "unclosed character class; missing ']'"
  | invalidRange first last => s!"invalid range; '{first}' > '{last}'"
  | unopenedGroup =>
    "unopened alternate group; missing '\x7b' (maybe escape '\x7d' with '[\x7d]'?)"
  | unclosedGroup =>
    "unclosed alternate group; missing '\x7d' (maybe escape '\x7b' with '[\x7b]'?)"
  | danglingEscape => "dangling '\\'"

/-- A text that is no glob, and why. -/
structure GlobError where
  text : String
  fault : GlobFault

/-- The message for a text that is no glob. -/
def GlobError.message (e : GlobError) : String :=
  s!"error parsing glob '{e.text}': {e.fault.message}"

end StoryBuild
