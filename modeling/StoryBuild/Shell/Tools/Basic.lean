import StoryBuild.Shell.Printing

namespace StoryBuild.Shell

/-- The path that an argument means. -/
def pathArg (arg : String) : Path :=
  .ofText arg

/-- Runs a step for every argument; the worst status counts. -/
def forArgs (args : List String) (f : String → Act Nat) : Act Nat :=
  args.foldlM (fun worst arg => do pure (max worst (← f arg))) 0

/-- Changes the disk, or complains in the name of a program. -/
def changeDisk (wires : Wires) (label : String)
    (change : DiskTree → Except SystemFault DiskTree) : Act Nat := do
  let s ← get
  match change s.disk with
  | .ok disk =>
    set { s with disk }
    pure 0
  | .error fault =>
    complain wires s!"{label}: {faultText fault}"
    pure 1

/-- The bytes of a file or of the input, or nothing after a complaint. -/
def readArg (tool : String) (wires : Wires) (arg : String) : Act (Option (List UInt8)) := do
  if arg = "-" ∨ arg = "/dev/stdin" then pure (some (← takeInput wires))
  else if arg = "/dev/null" then pure (some [])
  else
    match (← get).disk.readBytes (pathArg arg) with
    | .ok content => pure (some content.toList)
    | .error fault =>
      complain wires s!"{tool}: {arg}: {faultText fault}"
      pure none

/-- The bytes of all files, or of the input if there are none, and whether all could be read. -/
def readArgs (tool : String) (wires : Wires) (args : List String) : Act (List UInt8 × Bool) := do
  let args := if args.isEmpty then ["-"] else args
  args.foldlM (fun (found : List UInt8 × Bool) arg => do
    match ← readArg tool wires arg with
    | some bytes => pure (found.1 ++ bytes, found.2)
    | none => pure (found.1, false)) ([], true)

/-- Splits the arguments into options and others. -/
def splitOptions : List String → List String × List String
  | "--" :: rest => ([], rest)
  | arg :: rest =>
    if arg.length > 1 ∧ arg.startsWith "-" then
      let (options, others) := splitOptions rest
      (arg :: options, others)
    else
      let (options, others) := splitOptions rest
      (options, arg :: others)
  | [] => ([], [])

/-- Whether some option has a letter. -/
def hasLetter (options : List String) (letter : Char) : Bool :=
  options.any fun o => o.toList.drop 1 |>.contains letter

end StoryBuild.Shell
