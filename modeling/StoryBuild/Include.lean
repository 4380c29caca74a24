import StoryBuild.Text.Blank

namespace StoryBuild

/-- Where a scan for comments stands: in code, in a comment up to the end of the line, or in a
block comment, which remembers whether it has met a newline. -/
inductive ScanState where
  | code
  | line
  | block (sawNewline : Bool)
  deriving DecidableEq

/-- Removes comments from a text, with the scan in a given state. A line comment leaves its
newline. A closed block comment leaves one newline if it holds one; an open one leaves nothing. -/
def scanComments : ScanState → List Char → List Char
  | _, [] => []
  | .code, '/' :: '/' :: cs => scanComments .line cs
  | .code, '/' :: '*' :: cs => scanComments (.block false) cs
  | .code, c :: cs => c :: scanComments .code cs
  | .line, c :: cs => if c = '\n' then '\n' :: scanComments .code cs else scanComments .line cs
  | .block true, '*' :: '/' :: cs => '\n' :: scanComments .code cs
  | .block false, '*' :: '/' :: cs => scanComments .code cs
  | .block sawNewline, c :: cs => scanComments (.block (sawNewline || c = '\n')) cs

/-- A text without its comments. -/
def stripComments (cs : List Char) : List Char :=
  scanComments .code cs

/-- The file that a line names, if it is an include line. -/
def includeOfLine (line : List Char) : Option String :=
  match dropLead "INCLUDE".toList (trimStart line) with
  | some (c :: rest) =>
    let named := trim rest
    if isBlank c ∧ named ≠ [] then some (String.ofList named) else none
  | _ => none

/-- The included files as written in a source text, in order. -/
def includesOf (text : String) : List String :=
  (linesOf (stripComments text.toList)).filterMap includeOfLine

end StoryBuild
