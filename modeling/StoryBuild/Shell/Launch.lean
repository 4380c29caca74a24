import StoryBuild.Shell.Run

namespace StoryBuild.Shell

/-- The steps that a script may take in depth. -/
def stepBound : Nat := 20000

/-- Whether a program can be started. A file with the name of a program is none. -/
def startable (disk : DiskTree) (program : String) : Except SystemFault Unit :=
  let name := bareName program
  if shellNames.contains name ∨ (program? name).isSome then .ok ()
  else if program.contains '/' then
    match disk.find (.ofText program) with
    | .ok _ => .error .denied
    | .error fault => .error fault
  else .error .noEntry

/-- Runs a program with arguments in a directory, to its end or to the end of its time. -/
def launch (disk : DiskTree) (patience : Nat) (dir : Path) (program : String) (args : List String) :
    Except SystemFault ChildRun × DiskTree :=
  match disk.locate true dir with
  | .error fault => (.error fault, disk)
  | .ok place =>
    let inside := { disk with here := place }
    match startable inside program with
    | .error fault => (.error fault, disk)
    | .ok () =>
      let name := bareName program
      let act : Act Flow :=
        if shellNames.contains name then runInner stepBound {} args
        else
          match program? name with
          | some run => do ended (← run args {})
          | none => pure .onward
      let (flow, s) := act.run { disk := inside, name := program, patience }
      let exit := match flow with
        | .killed signal => ChildExit.signal signal
        | _ => .status (s.status % 256)
      let millis := if flow = .endless then forever else s.millis
      (.ok ⟨s.printed.reverse, exit, millis⟩, { s.disk with here := disk.here })

end StoryBuild.Shell

namespace StoryBuild

instance : Machine DiskTree where
  launch := Shell.launch
  readBytes := DiskTree.readBytes
  removeFile := DiskTree.removeFile
  makeDirs := DiskTree.makeAllDirs

end StoryBuild
