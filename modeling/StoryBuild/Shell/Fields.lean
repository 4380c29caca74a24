import StoryBuild.Shell.Pattern
import StoryBuild.Shell.Scene

namespace StoryBuild.Shell

/-- A part of an expanded word: a text in quotes, a literal text, the text of a value, which is cut
at blanks, or the border between two words. -/
inductive Chunk where
  | solid (s : String)
  | plain (s : String)
  | loose (s : String)
  | border

/-- A word whose characters are protected or not. -/
abbrev Marked := List (Bool × Char)

/-- The text of a word. -/
def Marked.text (m : Marked) : String :=
  String.ofList (m.map Prod.snd)

/-- A text with one protection for all characters. -/
def markAll (protected? : Bool) (s : String) : Marked :=
  s.toList.map fun c => (protected?, c)

/-- The blanks at which values are cut if a script does not say otherwise. -/
def usualBlanks : String := " \t\n"

/-- The words that chunks make, with the characters at which values are cut. The word in progress is
kept apart, as far as one has started. -/
def fieldsOf (blanks : String) (chunks : List Chunk) : List Marked :=
  let close (state : List Marked × Option Marked) : List Marked × Option Marked :=
    (state.1 ++ state.2.toList, none)
  let (done, last) := chunks.foldl (fun (state : List Marked × Option Marked) chunk =>
    match chunk with
    | .solid s => (state.1, some (state.2.getD [] ++ markAll true s))
    | .plain s => (state.1, some (state.2.getD [] ++ markAll false s))
    | .border => close state
    | .loose s =>
      s.toList.foldl (fun state c =>
        if blanks.contains c then close state
        else (state.1, some (state.2.getD [] ++ [(false, c)]))) state) ([], none)
  done ++ last.toList

/-- The text that chunks make. -/
def joinChunks (chunks : List Chunk) : String :=
  String.join (chunks.map fun
    | .solid s => s
    | .plain s => s
    | .loose s => s
    | .border => " ")

/-- Whether a word has a character that stands for others. -/
def isWild (m : Marked) : Bool :=
  m.any fun e => !e.1 && (e.2 = '*' || e.2 = '?' || e.2 = '[')

/-- Cuts a word at its slashes. -/
def cutMarked : Marked → List Marked
  | [] => [[]]
  | e :: rest =>
    match cutMarked rest with
    | [] => [[]]
    | piece :: pieces => if e.2 = '/' then [] :: piece :: pieces else (e :: piece) :: pieces

/-- The names in a directory that match a piece of a word. A dot in front is matched by a dot
only. -/
def namesMatching (disk : DiskTree) (dir : String) (piece : Marked) : List String :=
  let tokens := readPattern (piece.length + 1) piece
  let names := ((disk.list (.ofText (if dir = "" then "." else dir))).toOption.getD []).mergeSort
    fun a b => a ≤ b
  names.filter fun name =>
    patternMatches tokens name.toList &&
      (!name.startsWith "." || (piece.head?.any fun e => e.2 = '.'))

/-- The paths that the pieces of a word match, behind a start. -/
def pathsMatching (disk : DiskTree) : List Marked → String → List String
  | [], start => [start]
  | piece :: rest, start =>
    let names := if isWild piece then namesMatching disk start piece else [piece.text]
    names.flatMap fun name =>
      pathsMatching disk rest (start ++ name ++ if rest.isEmpty then "" else "/")

/-- The words that a word means: the paths that it matches, or itself if there are none. -/
def unfoldField (disk : DiskTree) (m : Marked) : List String :=
  if !isWild m then [m.text]
  else
    let found := (pathsMatching disk (cutMarked m) "").filter fun p =>
      (disk.find (.ofText p)).toOption.isSome
    if found.isEmpty then [m.text] else found

/-- Drops newlines at the end. -/
def dropNewlines (s : String) : String :=
  String.ofList (s.toList.reverse.dropWhile (· = '\n')).reverse

/-- The value of a parameter, if it is set. -/
def Scene.param? (s : Scene) (name : String) : Option String :=
  match name with
  | "#" => some (toString s.params.length)
  | "?" => some (toString s.status)
  | "$" => some ownNumber
  | "!" => some ""
  | "-" => some ""
  | "@" => some (" ".intercalate s.params)
  | "*" => some (" ".intercalate s.params)
  | "0" => some s.name
  | "PWD" => some (DiskTree.pathOf s.disk.here).text
  | name =>
    match readDecimal name.toList with
    | some i => s.params[i - 1]?
    | none => s.setting? name

/-- The shortest or longest end of a text that a pattern matches is cut off. -/
def cutOff (fromEnd longest : Bool) (tokens : List PatternToken) (s : String) : String :=
  let cs := s.toList
  let lengths := List.range (cs.length + 1)
  let lengths := if longest then lengths.reverse else lengths
  let found := lengths.find? fun k =>
    patternMatches tokens (if fromEnd then cs.drop (cs.length - k) else cs.take k)
  match found with
  | some k => String.ofList (if fromEnd then cs.take (cs.length - k) else cs.drop k)
  | none => s

end StoryBuild.Shell
