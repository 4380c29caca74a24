import StoryBuild.Text.Digit
import StoryBuild.Text.Blank

namespace StoryBuild

/-- How serious a diagnostic is. A note by the author stands lowest. -/
inductive Severity where
  | author
  | warning
  | error
  deriving DecidableEq, Inhabited

namespace Severity

/-- The tag that starts a line of this severity. -/
def tag : Severity → List Char
  | author => "TODO".toList
  | warning => "WARNING".toList
  | error => "ERROR".toList

/-- The word for a severity in reports. -/
def word : Severity → String
  | author => "todo"
  | warning => "warning"
  | error => "error"

end Severity

/-- One thing that a compiler reported. -/
structure Diagnostic where
  severity : Severity
  file : Option String
  line : Option Nat
  message : String
  deriving DecidableEq, Inhabited

/-- Why a line yields less than a whole diagnostic. -/
inductive LineNote where
  /-- The line has no known form and is dropped. -/
  | unreadable
  /-- The line number is too large or not written in ASCII digits, and is left out. -/
  | numberOutOfRange
  deriving DecidableEq

namespace Diagnostic

/-- The text of a diagnostic in a report. -/
def text (d : Diagnostic) : String :=
  match d.file, d.line with
  | some file, some line => s!"{d.severity.word}: {file}:{line}: {d.message}"
  | some file, none => s!"{d.severity.word}: {file}: {d.message}"
  | none, _ => s!"{d.severity.word}: {d.message}"

/-- Line numbers lie below this bound. -/
def lineBound : Nat := Nat.pow 2 32

/-- A severity tag and a colon at the start of a text, and what follows. -/
def readTag (cs : List Char) : Option (Severity × List Char) :=
  [Severity.error, .warning, .author].findSome? fun s =>
    (dropLead (s.tag ++ [':']) cs).map fun rest => (s, rest)

/-- Blanks of which there is at least one. -/
def readBlanks : List Char → Option (List Char)
  | [] => none
  | c :: cs => if isBlank c then some (trimStart cs) else none

/-- A location at the start of a text: a quoted file name, the word `line`, digits and a colon,
with what follows. -/
def readLocation (cs : List Char) : Option (List Char × List Char × List Char) := do
  let afterQuote ← dropLead ['\x27'] cs
  let file := afterQuote.takeWhile (· ≠ '\x27')
  let afterFile ← dropLead ['\x27'] (afterQuote.dropWhile (· ≠ '\x27'))
  let word ← readBlanks afterFile
  let afterWord ← dropLead "line".toList word
  let number ← readBlanks afterWord
  let digits := number.takeWhile isDecimalDigit
  let rest ← dropLead [':'] (number.dropWhile isDecimalDigit)
  if file = [] ∨ digits = [] then none else some (file, digits, trimStart rest)

/-- The number of a line, unless it is out of range. -/
def lineNumber? (digits : List Char) : Option Nat :=
  (readDecimal digits).filter (· < lineBound)

/-- The diagnostic of one line. A message must stand on one line of its own. -/
def ofLine? (line : String) : Option Diagnostic := do
  let (severity, rest) ← readTag (trimStart line.toList)
  let body := trimStart rest
  match readLocation body with
  | some (file, digits, rest) =>
    let message := trimEnd rest
    if '\n' ∈ message then none
    else some ⟨severity, some (String.ofList file), lineNumber? digits, String.ofList message⟩
  | none =>
    let message := trimEnd body
    if '\n' ∈ message then none else some ⟨severity, none, none, String.ofList message⟩

/-- What is to be noted about a line when it is read. -/
def noteOfLine (line : String) : Option LineNote :=
  match ofLine? line with
  | none => some .unreadable
  | some d => if d.file.isSome ∧ d.line.isNone then some .numberOutOfRange else none

/-- The lines that are not blank. -/
def spokenLines (lines : List String) : List String :=
  lines.filter fun line => !isBlankText line.toList

/-- The diagnostics of a compiler's output. Blank lines and unreadable lines yield none. -/
def ofLines (lines : List String) : List Diagnostic :=
  (spokenLines lines).filterMap ofLine?

end Diagnostic

end StoryBuild
