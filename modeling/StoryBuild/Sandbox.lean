import StoryBuild.MemoryDisk
import StoryBuild.Compiler.Script

namespace StoryBuild

/-- A disk in memory, and a compiler that follows scripts: one for each master that has one, and for
the others the collection of all includes. -/
structure Sandbox where
  disk : MemoryDisk := .empty
  scripts : List (Path × Script) := []
  /-- What becomes of the compiles that are handed to workers. -/
  workers : Handover := .taken

namespace Sandbox

/-- Changes the disk. -/
def mapDisk (s : Sandbox) (f : MemoryDisk → MemoryDisk) : Sandbox :=
  { s with disk := f s.disk }

/-- Gives a master a script. -/
def setScript (s : Sandbox) (master : Path) (script : Script) : Sandbox :=
  { s with scripts := putAt master script s.scripts }

/-- What the compiler does with a master. -/
def scriptOf (s : Sandbox) (master : Path) : Script :=
  (s.scripts.lookup master).getD .collect

instance : Workshop Sandbox where
  readText s := s.disk.readText
  write s p content :=
    let (result, disk) := s.disk.write p content
    (result, { s with disk })
  isPresent s := Storage.isPresent s.disk
  isFile s := Storage.isFile s.disk
  isDir s := Storage.isDir s.disk
  modified s p :=
    let (result, disk) := s.disk.modified p
    (result, { s with disk })
  canonicalize s := Storage.canonicalize s.disk
  readDir s := s.disk.readDir
  size s := Storage.size s.disk
  perform s r := (s.scriptOf r.master, s)
  handOver s _ := s.workers

end Sandbox

end StoryBuild
