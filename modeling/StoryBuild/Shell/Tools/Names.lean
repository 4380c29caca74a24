import StoryBuild.Shell.Tools.Basic

namespace StoryBuild.Shell

/-- Prints the last name of a path, without an ending. -/
def baseName (args : List String) (wires : Wires) : Act Nat := do
  let name := ((args.head?.map pathArg).bind Path.fileName?).getD (args.headD "")
  let ending := (args[1]?).getD ""
  let short :=
    if ending ≠ "" ∧ name.endsWith ending ∧ name ≠ ending then
      String.ofList (name.toList.take (name.length - ending.length))
    else name
  sayText wires (short ++ "\n")
  pure 0

/-- Prints what stands in front of the last name of a path. -/
def dirName (args : List String) (wires : Wires) : Act Nat := do
  let above := ((args.head?.map pathArg).bind Path.parent?).map Path.text
  sayText wires ((if above.getD "" = "" then "." else above.getD "") ++ "\n")
  pure 0

/-- The milliseconds of a number of seconds with an optional unit. -/
def pauseOf (arg : String) : Nat :=
  let cs := arg.toList
  let whole := cs.takeWhile Char.isDigit
  let (places, rest) := match cs.drop whole.length with
    | '.' :: more => (more.takeWhile Char.isDigit, more.dropWhile Char.isDigit)
    | more => ([], more)
  let millis := (readDecimal whole).getD 0 * 1000 +
    (readDecimal ((places ++ ['0', '0', '0']).take 3)).getD 0
  match rest with
  | ['m'] => millis * 60
  | ['h'] => millis * 3600
  | ['d'] => millis * 86400
  | _ => millis

/-- Lets time pass. -/
def sleep (args : List String) : Act Nat := do
  modify fun s => { s with millis := args.foldl (fun total arg => total + pauseOf arg) s.millis }
  pure 0

end StoryBuild.Shell
