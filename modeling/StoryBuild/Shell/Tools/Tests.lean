import StoryBuild.Shell.Sum
import StoryBuild.Shell.Tools.Basic

namespace StoryBuild.Shell

/-- The words before and after a connective that stands among more than three words. -/
def splitAtWord (word : String) (ws : List String) : Option (List String × List String) :=
  let before := ws.takeWhile (· ≠ word)
  if ws.length > 3 ∧ before.length < ws.length ∧ before ≠ [] then
    some (before, ws.drop (before.length + 1))
  else none

mutual

/-- Whether a test of some words holds. The steps allowed are at least the words. -/
def testWords (disk : DiskTree) : Nat → List String → Bool
  | 0, _ => false
  | _, [] => false
  | n + 1, ws =>
    match splitAtWord "-o" ws with
    | some (a, b) => testWords disk n a || testWords disk n b
    | none =>
      match splitAtWord "-a" ws with
      | some (a, b) => testWords disk n a && testWords disk n b
      | none => testUnit disk n ws

/-- A test without connectives. -/
def testUnit (disk : DiskTree) : Nat → List String → Bool
  | _, [s] => s ≠ ""
  | n + 1, "!" :: ws => !testWords disk n ws
  | _, [op, s] =>
    match op with
    | "-n" => s ≠ ""
    | "-z" => s = ""
    | "-e" => (disk.find (pathArg s)).toOption.isSome
    | "-f" => disk.isFile (pathArg s)
    | "-d" => disk.isDir (pathArg s)
    | "-r" => (disk.find (pathArg s)).toOption.isSome
    | "-w" => (disk.find (pathArg s)).toOption.isSome
    | "-s" => ((disk.readBytes (pathArg s)).toOption.map ByteArray.size).getD 0 > 0
    | "-x" => disk.isDir (pathArg s)
    | _ => false
  | _, [a, op, b] =>
    match op with
    | "=" => a = b
    | "==" => a = b
    | "!=" => a ≠ b
    | "-eq" => numberOf a = numberOf b
    | "-ne" => numberOf a ≠ numberOf b
    | "-lt" => numberOf a < numberOf b
    | "-le" => numberOf a ≤ numberOf b
    | "-gt" => numberOf a > numberOf b
    | "-ge" => numberOf a ≥ numberOf b
    | _ => false
  | _, _ => false

end

/-- Prints the value of an expression. A value of zero counts as a failure. -/
def expr (args : List String) (wires : Wires) : Act Nat := do
  match sumValue (fun _ => 0) (" ".intercalate args) with
  | some value =>
    sayText wires s!"{value}\n"
    pure (if value = 0 then 1 else 0)
  | none =>
    complain wires "expr: syntax error"
    pure 2

end StoryBuild.Shell
