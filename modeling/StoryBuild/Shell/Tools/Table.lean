import StoryBuild.Shell.Streams
import StoryBuild.Shell.Tools.Files
import StoryBuild.Shell.Tools.Names
import StoryBuild.Shell.Tools.Search
import StoryBuild.Shell.Tools.Tests

namespace StoryBuild.Shell

/-- A program, which gets its arguments and reports its exit status. -/
abbrev Tool := List String → Wires → Act Nat

/-- Prints the directory in which a script is. -/
def printPlace : Tool := fun _ wires => do
  sayText wires ((DiskTree.pathOf (← get).disk.here).text ++ "\n")
  pure 0

/-- Whether a test holds, as an exit status. -/
def test : Tool := fun args _ => do
  pure (if testWords (← get).disk (args.length + 1) args then 0 else 1)

/-- The programs that work on files. -/
def fileTools : List (String × Tool) :=
  [("cat", cat), ("cp", copyFile), ("mv", moveFile), ("rm", removeFiles),
    ("mkdir", makeDirectories), ("rmdir", removeDirectories), ("touch", touch), ("ln", linkFile),
    ("ls", listNames), ("chmod", changeMode), ("truncate", resizeFiles), ("dd", copyBytes)]

/-- The programs that work on lines. -/
def lineTools : List (String × Tool) :=
  [("head", takeFirst), ("tail", takeLast), ("wc", countInput), ("tr", translate),
    ("sort", sortLines), ("uniq", dropRepeats), ("seq", countUp), ("grep", searchLines),
    ("sed", editStream), ("cut", cutLines), ("rev", turnLines), ("tee", copyInput),
    ("yes", repeatLine)]

/-- The other programs. -/
def plainTools : List (String × Tool) :=
  [("basename", baseName), ("dirname", dirName), ("expr", expr),
    ("sleep", fun args _ => sleep args), ("printf", printf), ("echo", echo false),
    ("true", fun _ _ => pure 0), ("false", fun _ _ => pure 1), ("pwd", printPlace),
    ("test", test), ("[", fun args => test args.dropLast)]

/-- The programs that every machine has. -/
def programs : List (String × Tool) :=
  fileTools ++ lineTools ++ plainTools

/-- The program with a name. -/
def program? (name : String) : Option Tool :=
  programs.lookup name

/-- The names under which a shell is known. -/
def shellNames : List String := ["sh", "dash", "bash"]

/-- The commands of a shell that change nothing here. -/
def idleNames : List String := ["wait", "umask", "ulimit", "hash", "times", "alias", "unalias"]

/-- The commands that a shell carries out by itself. -/
def ownNames : List String :=
  [":", ".", "exit", "return", "break", "continue", "cd", "shift", "set", "export", "readonly",
    "local", "unset", "read", "eval", "exec", "command", "type", "trap", "kill", "echo", "printf",
    "test", "[", "true", "false", "pwd"] ++ idleNames

/-- The name of a program without the directory of all programs in front of it. -/
def bareName (program : String) : String :=
  match DiskTree.namesOf program with
  | ["bin", name] => if program.startsWith "/" then name else program
  | ["usr", "bin", name] => if program.startsWith "/" then name else program
  | _ => program

/-- Says where a command is found. -/
def showProgram (wires : Wires) (name label : String) : Act Flow := do
  if ownNames.contains name then
    sayText wires (if label = "" then s!"{name}\n" else s!"{label}a shell builtin\n")
    done 0
  else if shellNames.contains name ∨ (program? name).isSome then
    sayText wires s!"{label}/usr/bin/{name}\n"
    done 0
  else
    if label ≠ "" then sayText wires s!"{name}: not found\n"
    done 127

end StoryBuild.Shell
