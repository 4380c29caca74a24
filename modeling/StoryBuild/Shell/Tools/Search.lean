import StoryBuild.Shell.Expression
import StoryBuild.Shell.Tools.Lines
import StoryBuild.Text.Lowercase

namespace StoryBuild.Shell

/-- Prints the lines that a pattern is found in. -/
def searchLines (args : List String) (wires : Wires) : Act Nat := do
  let (options, others) := splitOptions args
  match others with
  | [] =>
    complain wires "usage: grep [OPTION]... PATTERNS [FILE]..."
    pure 2
  | pattern :: files =>
    let (bytes, complete) ← readArgs "grep" wires files
    let fold := fun (s : String) => if hasLetter options 'i' then lowerCase s else s
    let e :=
      if hasLetter options 'F' then Expression.plain (fold pattern)
      else Expression.read (hasLetter options 'E') (fold pattern)
    let found := ((textLines bytes).zipIdx 1).filter fun line =>
      e.occursIn (fold line.1) != hasLetter options 'v'
    if hasLetter options 'c' then sayText wires s!"{found.length}\n"
    else if !hasLetter options 'q' then
      sayLines wires (found.map fun line =>
        if hasLetter options 'n' then s!"{line.2}:{line.1}" else line.1)
    pure (if !complete then 2 else if found.isEmpty then 1 else 0)

/-- What an editing command does with a line. -/
inductive Edit where
  | replace (pattern : Expression) (content : List Char) (everywhere : Bool) (shows : Bool)
  | delete
  | show
  | quit

/-- Which lines an editing command is about. -/
inductive EditPlace where
  | every
  | number (n : Nat)
  | last
  | matching (pattern : Expression)

/-- A text up to a mark that no backslash protects, and what follows the mark. -/
def upToMark (mark : Char) : List Char → Option (List Char × List Char)
  | [] => none
  | '\\' :: c :: cs =>
    (upToMark mark cs).map fun r => ((if c = mark then [c] else ['\\', c]) ++ r.1, r.2)
  | c :: cs => if c = mark then some ([], cs) else (upToMark mark cs).map fun r => (c :: r.1, r.2)

/-- The place in front of an editing command. -/
def readPlace (cs : List Char) : Option (EditPlace × List Char) :=
  match cs with
  | '$' :: rest => some (.last, rest)
  | '/' :: rest =>
    (upToMark '/' rest).map fun r => (.matching (.read false (String.ofList r.1)), r.2)
  | cs =>
    match readDecimal (cs.takeWhile Char.isDigit) with
    | some n => some (.number n, cs.dropWhile Char.isDigit)
    | none => some (.every, cs)

/-- The editing commands of a script. The steps allowed are at least its characters. -/
def readEdits : Nat → List Char → Option (List (EditPlace × Edit))
  | 0, _ => none
  | n + 1, cs =>
    match cs.dropWhile fun c => isBlank c || c = ';' with
    | [] => some []
    | cs => do
      let (place, cs) ← readPlace cs
      match cs with
      | 's' :: mark :: cs =>
        let (pattern, cs) ← upToMark mark cs
        let (content, cs) ← upToMark mark cs
        let flags := cs.takeWhile fun c => c ≠ ';' ∧ c ≠ '\n'
        let edits ← readEdits n (cs.drop flags.length)
        pure ((place, .replace (.read false (String.ofList pattern)) content
          (flags.contains 'g') (flags.contains 'p')) :: edits)
      | 'd' :: cs => (readEdits n cs).map ((place, .delete) :: ·)
      | 'p' :: cs => (readEdits n cs).map ((place, .show) :: ·)
      | 'q' :: cs => (readEdits n cs).map ((place, .quit) :: ·)
      | _ => none

/-- The text that is put in place of a find. -/
def fillIn (found : List Char) : List Char → List Char
  | [] => []
  | '\\' :: 'n' :: cs => '\n' :: fillIn found cs
  | '\\' :: c :: cs => c :: fillIn found cs
  | '&' :: cs => found ++ fillIn found cs
  | c :: cs => c :: fillIn found cs

/-- Replaces finds from a place on. The steps allowed are at least the characters. -/
def replaceFinds (e : Expression) (content : List Char) (everywhere : Bool) (cs : List Char) :
    Nat → Nat → List Char
  | 0, start => cs.drop start
  | n + 1, start =>
    match e.find cs start with
    | none => cs.drop start
    | some (i, k) =>
      let before := (cs.drop start).take (i - start)
      let changed := fillIn ((cs.drop i).take k) content
      if !everywhere ∨ cs.length ≤ i then before ++ changed ++ cs.drop (i + k)
      else if k = 0 then
        before ++ changed ++ (cs.drop i).take 1 ++ replaceFinds e content everywhere cs n (i + 1)
      else before ++ changed ++ replaceFinds e content everywhere cs n (i + k)

/-- Whether a line of a number, the last one or not, is meant. -/
def EditPlace.meets (line : String) (number : Nat) (isLast : Bool) : EditPlace → Bool
  | every => true
  | EditPlace.number n => n = number
  | EditPlace.last => isLast
  | matching e => e.occursIn line

/-- Edits one line: what is printed on the way, what is left of it, and whether it is the last. -/
def editLine (edits : List (EditPlace × Edit)) (line : String) (number : Nat) (isLast : Bool) :
    List String × Option String × Bool :=
  edits.foldl (fun state (place, edit) =>
    match state with
    | (shown, some line, false) =>
      if place.meets line number isLast then
        match edit with
        | .delete => (shown, none, false)
        | .show => (shown ++ [line], some line, false)
        | .quit => (shown, some line, true)
        | .replace e content everywhere shows =>
          let cs := line.toList
          if e.occursIn line then
            let new := String.ofList (replaceFinds e content everywhere cs (cs.length + 1) 0)
            (if shows then shown ++ [new] else shown, some new, false)
          else state
      else state
    | state => state) ([], some line, false)

/-- Edits lines one after the other. -/
def editLines (edits : List (EditPlace × Edit)) (quiet : Bool) (count : Nat) :
    List String → Nat → List String
  | [], _ => []
  | line :: rest, number =>
    let (shown, left, ends) := editLine edits line number (number = count)
    let printed := shown ++ if quiet then [] else left.toList
    if ends then printed else printed ++ editLines edits quiet count rest (number + 1)

/-- Edits the lines of files or of the input. -/
def editStream (args : List String) (wires : Wires) : Act Nat := do
  let (options, others) := splitOptions args
  match others with
  | [] =>
    complain wires "Usage: sed [OPTION]... script [input-file]..."
    pure 1
  | script :: files =>
    match readEdits (script.length + 1) script.toList with
    | none =>
      complain wires "sed: -e expression #1, char 1: unknown command"
      pure 1
    | some edits =>
      let (bytes, complete) ← readArgs "sed" wires files
      let lines := textLines bytes
      let printed := editLines edits (hasLetter options 'n') lines.length lines 1
      let text := String.join (printed.map (· ++ "\n"))
      let whole := bytes.isEmpty || bytes.getLast? = some 10
      sayText wires (if whole then text else String.ofList text.toList.dropLast)
      pure (if complete then 0 else 2)

end StoryBuild.Shell
