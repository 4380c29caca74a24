import StoryBuild.Program

namespace StoryBuild.Terminal

/-- A listed file: when it was last changed, and its path. -/
def listed (line : String) : Option (Nat × String) :=
  let cs := trim line.toList
  let digits := cs.takeWhile Char.isDigit
  (readDecimal digits).map fun time =>
    (time, String.ofList (trimStart (cs.drop digits.length)))

/-- The place of a path seen from the working directory. -/
def placeOf (disk : DiskTree) (path : String) : List String :=
  DiskTree.startOf disk.here path ++ DiskTree.namesOf path

/-- Reads the listed files. -/
partial def readTree (input : IO.FS.Stream) (disk : DiskTree) : IO DiskTree := do
  match listed (← input.getLine) with
  | none => pure disk
  | some (time, path) =>
    let content ← IO.FS.readBinFile path
    readTree input (disk.plant (placeOf disk path) (.file content time))

/-- Writes the files that are new or have changed, and removes those that are gone. -/
def writeBack (old new : DiskTree) : IO Unit := do
  let before := old.filesBelow []
  let after := new.filesBelow []
  for (path, content) in after do
    unless (before.lookup path).any (· == content) do
      let above := (DiskTree.namesOf path).dropLast
      IO.FS.createDirAll ("/" ++ "/".intercalate above)
      IO.FS.writeBinFile ("/" ++ path) content
  for (path, _) in before do
    unless (after.lookup path).isSome do
      IO.FS.removeFile ("/" ++ path)

/-- What a changed file has become. -/
def changeOf (disk : DiskTree) (path : String) : IO (DiskTree → DiskTree) := do
  let place := placeOf disk path
  match ← (IO.FS.readBinFile path).toBaseIO with
  | .ok content => pure fun t => t.plant place (.file content t.clock)
  | .error _ => pure fun t => t.drop place

/-- Follows the changes until the input ends. -/
partial def follow (input : IO.FS.Stream) (s : Session) : IO Session := do
  let line ← input.getLine
  if line.isEmpty then pure s
  else
    let path := trimText line
    let change ← changeOf s.disk path
    let touched := s.disturb change [DiskTree.pathOf (placeOf s.disk path)]
    let next := touched.run
    writeBack (change s.disk) next.disk
    follow input next

/-- Prints what a run has to say, and returns its exit code. -/
def tell (filter : LogFilter) (r : Report) : IO UInt32 := do
  for line in r.log do
    if filter.shows line then
      IO.eprintln s!"{line.level.name} {line.area.target}: {line.message}"
  IO.print r.printed
  if let some complaint := r.complaint then
    IO.eprintln s!"inkwatch error: {complaint}"
  pure r.exit.toUInt32

end StoryBuild.Terminal

open StoryBuild in
/-- Runs the program. The files of the working directory are listed on standard input, one in a
line: the second of its last change, a blank, and its path. After an empty line, every further line
is the path of a file that has changed. What becomes of the files is written back. -/
def main (args : List String) : IO UInt32 := do
  let input ← IO.getStdin
  let here := DiskTree.namesOf ((← IO.getEnv "PWD").getD "")
  let start := DiskTree.plant {} here (.dir 0)
  let disk ← match CommandLine.ofArgs args with
    | .run _ => Terminal.readTree input { start with here }
    | _ => pure start
  let filter := Program.filterOf args (← IO.getEnv "INKWATCH_LOG")
  match Program.start args disk with
  | .ended r =>
    Terminal.writeBack disk r.disk
    Terminal.tell filter r
  | .running s =>
    let s := s.run
    Terminal.writeBack disk s.disk
    Terminal.tell filter (Program.reportOf (← Terminal.follow input s).stop)
