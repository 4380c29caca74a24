import StoryBuild.Shell.Tools.Basic

namespace StoryBuild.Shell

/-- Prints files one after the other. -/
def cat (args : List String) (wires : Wires) : Act Nat := do
  let others := (splitOptions args).2
  forArgs (if others.isEmpty then ["-"] else others) fun arg => do
    match ← readArg "cat" wires arg with
    | some bytes =>
      say wires bytes
      pure 0
    | none => pure 1

/-- The path of a source in a target, which may be a directory. -/
def targetOf (disk : DiskTree) (source target : String) : Path :=
  if disk.isDir (pathArg target) then
    (pathArg target).join (.ofText ((pathArg source).fileName?.getD source))
  else pathArg target

/-- Copies files. -/
def copyFile (args : List String) (wires : Wires) : Act Nat := do
  let others := (splitOptions args).2
  match others.getLast? with
  | none =>
    complain wires "cp: missing file operand"
    complain wires "Try 'cp --help' for more information."
    pure 1
  | some target =>
    if others.length = 1 then
      complain wires s!"cp: missing destination file operand after '{target}'"
      complain wires "Try 'cp --help' for more information."
      pure 1
    else
      forArgs others.dropLast fun source => do
        let disk := (← get).disk
        match if source = "/dev/null" then .ok .empty else disk.readBytes (pathArg source) with
        | .error fault =>
          complain wires s!"cp: cannot stat '{source}': {faultText fault}"
          pure 1
        | .ok content =>
          changeDisk wires s!"cp: cannot create regular file '{target}'" fun disk =>
            disk.create (targetOf disk source target) content

/-- Gives a file another path. -/
def moveFile (args : List String) (wires : Wires) : Act Nat := do
  match (splitOptions args).2 with
  | [source, target] =>
    changeDisk wires s!"mv: cannot stat '{source}'" fun disk =>
      disk.rename (pathArg source) (targetOf disk source target)
  | _ =>
    complain wires "mv: missing file operand"
    pure 1

/-- Removes files, and directories on request. -/
def removeFiles (args : List String) (wires : Wires) : Act Nat := do
  let (options, others) := splitOptions args
  let force := hasLetter options 'f'
  let deep := hasLetter options 'r' || hasLetter options 'R'
  forArgs others fun arg => do
    let s ← get
    match s.disk.removeFile (pathArg arg) with
    | .ok disk =>
      set { s with disk }
      pure 0
    | .error .isDirectory =>
      if deep then
        changeDisk wires s!"rm: cannot remove '{arg}'" fun disk => do
          pure (disk.drop (← disk.locate false (pathArg arg)))
      else
        complain wires s!"rm: cannot remove '{arg}': Is a directory"
        pure 1
    | .error fault =>
      if force then pure 0
      else
        complain wires s!"rm: cannot remove '{arg}': {faultText fault}"
        pure 1

/-- Removes empty directories. -/
def removeDirectories (args : List String) (wires : Wires) : Act Nat :=
  forArgs (splitOptions args).2 fun arg =>
    changeDisk wires s!"rmdir: failed to remove '{arg}'" fun disk => do
      let names ← disk.list (pathArg arg)
      if names.isEmpty then pure (disk.drop (← disk.locate false (pathArg arg)))
      else throw .notEmpty

/-- Makes directories. -/
def makeDirectories (args : List String) (wires : Wires) : Act Nat := do
  let (options, others) := splitOptions args
  forArgs others fun arg =>
    changeDisk wires s!"mkdir: cannot create directory '{arg}'" fun disk =>
      if hasLetter options 'p' then disk.makeAllDirs (pathArg arg) else disk.makeDir (pathArg arg)

/-- Makes files as if they were just written. -/
def touch (args : List String) (wires : Wires) : Act Nat :=
  forArgs (splitOptions args).2 fun arg =>
    changeDisk wires s!"touch: cannot touch '{arg}'" fun disk =>
      disk.create (pathArg arg) ((disk.readBytes (pathArg arg)).toOption.getD .empty)

/-- Makes a link. -/
def linkFile (args : List String) (wires : Wires) : Act Nat := do
  match (splitOptions args).2 with
  | [target, name] =>
    changeDisk wires s!"ln: failed to create symbolic link '{name}'" fun disk => do
      let place ← disk.locate false (pathArg name)
      if (disk.node? place).isSome then throw .present
      pure (disk.put place (.link target))
  | _ =>
    complain wires "ln: missing file operand"
    pure 1

/-- Prints the names in directories. -/
def listNames (args : List String) (wires : Wires) : Act Nat := do
  let (_, others) := splitOptions args
  forArgs (if others.isEmpty then ["."] else others) fun arg => do
    let disk := (← get).disk
    match disk.list (pathArg arg) with
    | .ok names =>
      let shown := (names.filter fun n => !n.startsWith ".").mergeSort fun a b => a ≤ b
      sayText wires (String.join (shown.map (· ++ "\n")))
      pure 0
    | .error .notDirectory =>
      sayText wires (arg ++ "\n")
      pure 0
    | .error fault =>
      complain wires s!"ls: cannot access '{arg}': {faultText fault}"
      pure 2

/-- Changes who may use files; of that nothing is kept. -/
def changeMode (args : List String) (wires : Wires) : Act Nat :=
  forArgs ((splitOptions args).2.drop 1) fun arg =>
    changeDisk wires s!"chmod: cannot access '{arg}'" fun disk => do
      let _ ← disk.find (pathArg arg)
      pure disk

/-- Gives files a size. -/
def resizeFiles (args : List String) (wires : Wires) : Act Nat :=
  match args with
  | "-s" :: size :: files =>
    forArgs files fun arg =>
      changeDisk wires s!"truncate: cannot open '{arg}' for writing" fun disk =>
        let old := ((disk.readBytes (pathArg arg)).toOption.getD .empty).toList
        let size := (readDecimal size.toList).getD 0
        disk.create (pathArg arg)
          ⟨(old.take size ++ List.replicate (size - old.length) 0).toArray⟩
  | _ => do
    complain wires "truncate: you must specify either '--size' or '--reference'"
    pure 1

/-- The value of an argument such as `if=path`. -/
def namedArg (name : String) (args : List String) : Option String :=
  (args.find? (·.startsWith (name ++ "="))).map fun arg =>
    String.ofList (arg.toList.drop (name.length + 1))

/-- Copies bytes from a file to a file, or from the input or to the first stream. -/
def copyBytes (args : List String) (wires : Wires) : Act Nat := do
  let count := (namedArg "count" args).bind fun n => readDecimal n.toList
  let size := ((namedArg "bs" args).bind fun n => readDecimal n.toList).getD 512
  let input := (namedArg "if" args).getD "-"
  let found ← if input = "/dev/zero" then pure (some (List.replicate (count.getD 0 * size) 0))
    else readArg "dd" wires input
  match found with
  | none => pure 1
  | some bytes =>
    let bytes := match count with
      | some n => bytes.take (n * size)
      | none => bytes
    match namedArg "of" args with
    | some target =>
      changeDisk wires s!"dd: failed to open '{target}'" fun disk =>
        disk.create (pathArg target) ⟨bytes.toArray⟩
    | none =>
      say wires bytes
      pure 0

end StoryBuild.Shell
