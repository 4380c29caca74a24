import StoryBuild.Shell.Basic
import StoryBuild.Text.Blank

namespace StoryBuild.Shell

/-- The characters that end a word outside of quotes. -/
def isMeta (c : Char) : Bool :=
  c ∈ [' ', '\t', '\n', ';', '&', '|', '<', '>', '(', ')']

/-- The characters of a name. -/
def isNameChar (c : Char) : Bool :=
  c.isAlphanum || c = '_'

/-- Whether a text is a name. -/
def isName (cs : List Char) : Bool :=
  cs.all isNameChar && (cs.head?.any fun c => !c.isDigit)

/-- Drops blanks in front, and newlines that a backslash hides. -/
def skipBlank : List Char → List Char
  | ' ' :: cs => skipBlank cs
  | '\t' :: cs => skipBlank cs
  | '\\' :: '\n' :: cs => skipBlank cs
  | cs => cs

/-- Drops blanks and a comment in front. -/
def skipNote (cs : List Char) : List Char :=
  match skipBlank cs with
  | '#' :: cs => cs.dropWhile (· ≠ '\n')
  | cs => cs

/-- Drops blank lines and comments in front. -/
def skipBreaks : Nat → List Char → List Char
  | 0, cs => cs
  | steps + 1, cs =>
    match skipNote cs with
    | '\n' :: cs => skipBreaks steps cs
    | cs => cs

/-- The words that end or part a command. -/
def partingWords : List String :=
  ["then", "do", "done", "fi", "else", "elif", "esac", "\x7d"]

/-- The word in front as it is written. -/
def rawWord (cs : List Char) : String :=
  String.ofList (cs.takeWhile fun c => !isMeta c)

/-- Drops a word in front after blank lines. -/
def dropWord (word : String) (cs : List Char) : Option (List Char) :=
  let cs := skipBreaks cs.length cs
  if rawWord cs = word then some (cs.drop word.length) else none

/-- Whether a list of commands ends here. -/
def endsList (cs : List Char) : Bool :=
  match cs with
  | [] => true
  | ')' :: _ => true
  | ';' :: ';' :: _ => true
  | cs => rawWord cs ∈ partingWords

/-- The text up to the end of an expression in double brackets. -/
def readSumText : Nat → List Char → Option (List Char × List Char)
  | _, [] => none
  | 0, ')' :: ')' :: cs => some ([], cs)
  | depth, '(' :: cs => (readSumText (depth + 1) cs).map fun r => ('(' :: r.1, r.2)
  | depth, ')' :: cs => (readSumText (depth - 1) cs).map fun r => (')' :: r.1, r.2)
  | depth, c :: cs => (readSumText depth cs).map fun r => (c :: r.1, r.2)

/-- The text up to a closing backtick; a backslash protects it. -/
def readTicks : List Char → Option (List Char × List Char)
  | [] => none
  | '\x60' :: cs => some ([], cs)
  | '\\' :: c :: cs =>
    let kept := if c = '\x60' ∨ c = '\\' ∨ c = '$' then [c] else ['\\', c]
    (readTicks cs).map fun r => (kept ++ r.1, r.2)
  | c :: cs => (readTicks cs).map fun r => (c :: r.1, r.2)

/-- Puts a piece in front of what was read after it. -/
def addPiece (piece : Piece) (r : Word × List Char) : Word × List Char :=
  (piece :: r.1, r.2)

/-- A literal piece of one character. -/
def charPiece (quoted : Bool) (c : Char) : Piece :=
  .text quoted (String.singleton c)

/-- The stream in front of a redirection: its number, or the usual one. -/
def streamOf (digits : List Char) (usual : Nat) : Nat :=
  if digits = [] then usual else digits.foldl (fun n c => 10 * n + (c.toNat - 48)) 0

/-- The mark of a redirection in front, with the stream it is about. -/
def readMark (cs : List Char) : Option (Nat × RedirectKind × List Char) :=
  let digits := cs.takeWhile Char.isDigit
  match cs.dropWhile Char.isDigit with
  | '>' :: '>' :: rest => some (streamOf digits 1, .append, rest)
  | '>' :: '&' :: rest => some (streamOf digits 1, .copy, rest)
  | '>' :: '|' :: rest => some (streamOf digits 1, .write, rest)
  | '>' :: rest => some (streamOf digits 1, .write, rest)
  | '<' :: '&' :: rest => some (streamOf digits 0, .copy, rest)
  | '<' :: '<' :: _ => none
  | '<' :: '\x01' :: rest => some (streamOf digits 0, .inlay, rest)
  | '<' :: rest => some (streamOf digits 0, .read, rest)
  | _ => none

/-- A word that sets a parameter: its name, and the pieces of the value. -/
def settingOf? : Word → Option (String × Word)
  | word =>
    let rec go (name : List Char) : Word → Option (String × Word)
      | .text false s :: rest =>
        if s = "=" then
          if isName name ∧ name ≠ [] then some (String.ofList name, rest) else none
        else go (name ++ s.toList) rest
      | _ => none
    go [] word

/-- Whether a quotation in a script is left open. The mark is that of the quotation at hand. -/
def leavesOpen : Option Char → List Char → Bool
  | mark, [] => mark.isSome
  | some '\x27', c :: cs => leavesOpen (if c = '\x27' then none else some '\x27') cs
  | mark, '\\' :: _ :: cs => leavesOpen mark cs
  | some mark, c :: cs => leavesOpen (if c = mark then none else some mark) cs
  | none, c :: cs => leavesOpen (if c = '\x27' ∨ c = '\x22' then some c else none) cs

/-- What is wrong with a script that cannot be read. -/
def syntaxFault (script : String) : String :=
  if leavesOpen none script.toList then "Unterminated quoted string"
  else "end of file unexpected"

end StoryBuild.Shell
