import StoryBuild.Storage

namespace StoryBuild

/-- What stands at a path: a file with its bytes and modification time, or a directory with the
names in it. -/
inductive Entry where
  | file (content : ByteArray) (modified : Nat)
  | dir (names : List String)

/-- Puts a value at a path in place of the one that stands there. -/
def putAt {α : Type} (p : Path) (a : α) (table : List (Path × α)) : List (Path × α) :=
  (p, a) :: table.filter fun e => !(e.1 == p)

/-- Takes away what stands at a path. -/
def removeAt {α : Type} (p : Path) (table : List (Path × α)) : List (Path × α) :=
  table.filter fun e => !(e.1 == p)

/-- Counts one failure down, if any is left. -/
def spendFault (p : Path) (faults : List (Path × Nat)) : Option (List (Path × Nat)) :=
  match faults.lookup p with
  | some (n + 1) => some (putAt p n faults)
  | _ => none

/-- Files and directories, the clock, and the failures still to come. Every write advances the clock
by one second, so later writes have later modification times. -/
structure MemoryDisk where
  entries : List (Path × Entry)
  clock : Nat
  metadataFaults : List (Path × Nat)
  writeFaults : List (Path × Nat)

namespace MemoryDisk

/-- A disk with nothing but a place for relative paths. -/
def empty : MemoryDisk :=
  ⟨[(.ofText ".", .dir [])], 0, [], []⟩

instance : Inhabited MemoryDisk := ⟨empty⟩

/-- The directory that lists a path. -/
def holderOf (p : Path) : Path :=
  match p.parent? with
  | some q => if q.text = "" then .ofText "." else q
  | none => .ofText "."

/-- Adds a name to the directory at a path, if there is one. -/
def addName (dir : Path) (name : String) (entries : List (Path × Entry)) : List (Path × Entry) :=
  match entries.lookup dir with
  | some (.dir names) =>
    if name ∈ names then entries else putAt dir (.dir (names ++ [name])) entries
  | _ => entries

/-- Lists a path in its directory; a missing directory is made and listed in turn. The steps
allowed are at least the parts of the path. -/
def link : Nat → Path → List (Path × Entry) → List (Path × Entry)
  | 0, _, entries => entries
  | steps + 1, p, entries =>
    match p.fileName? with
    | none => entries
    | some name =>
      let holder := holderOf p
      if holder == p then entries
      else if (entries.lookup holder).isSome then addName holder name entries
      else addName holder name (link steps holder (putAt holder (.dir []) entries))

/-- Writes a file, with the directories above it. -/
def addFile (d : MemoryDisk) (p : Path) (content : ByteArray) : MemoryDisk :=
  let clock := d.clock + 1
  { d with
    clock
    entries := link (p.parts.length + 1) p (putAt p (.file content clock) d.entries) }

/-- Gives a file a new modification time. The clock advances even if there is no such file. -/
def touch (d : MemoryDisk) (p : Path) : MemoryDisk :=
  let clock := d.clock + 1
  match d.entries.lookup p with
  | some (.file content _) => { d with clock, entries := putAt p (.file content clock) d.entries }
  | _ => { d with clock }

/-- Takes a path and its name in the directory away. -/
def remove (d : MemoryDisk) (p : Path) : MemoryDisk :=
  let entries := removeAt p d.entries
  let holder := holderOf p
  match entries.lookup holder, p.fileName? with
  | some (.dir names), some name =>
    { d with entries := putAt holder (.dir (names.filter (· ≠ name))) entries }
  | _, _ => { d with entries }

/-- Makes the next readings of a modification time fail. -/
def failMetadata (d : MemoryDisk) (p : Path) (times : Nat) : MemoryDisk :=
  { d with metadataFaults := putAt p times d.metadataFaults }

/-- Makes the next writes of a path fail. -/
def failWrite (d : MemoryDisk) (p : Path) (times : Nat) : MemoryDisk :=
  { d with writeFaults := putAt p times d.writeFaults }

/-- The bytes of a file. -/
def contents? (d : MemoryDisk) (p : Path) : Option ByteArray :=
  match d.entries.lookup p with
  | some (.file content _) => some content
  | _ => none

/-- Reads a file as text. -/
def readText (d : MemoryDisk) (p : Path) : Except IoError String :=
  match d.entries.lookup p with
  | some (.file content _) => (decodeText content).mapError .notText
  | some (.dir _) => .error (.isDirectory p)
  | none => .error (.notFound p)

/-- Writes a file unless the write is to be refused. -/
def write (d : MemoryDisk) (p : Path) (content : ByteArray) : Except IoError Unit × MemoryDisk :=
  match spendFault p d.writeFaults with
  | some writeFaults => (.error (.refused p), { d with writeFaults })
  | none => (.ok (), d.addFile p content)

/-- The modification time of a file, unless reading it is to fail. -/
def modified (d : MemoryDisk) (p : Path) : Except IoError Nat × MemoryDisk :=
  match spendFault p d.metadataFaults with
  | some metadataFaults => (.error (.noMetadata p), { d with metadataFaults })
  | none =>
    match d.entries.lookup p with
    | some (.file _ time) => (.ok time, d)
    | some (.dir _) => (.error (.isDirectory p), d)
    | none => (.error (.notFound p), d)

/-- The paths listed in a directory, in order. -/
def readDir (d : MemoryDisk) (p : Path) : Except IoError (List Path) :=
  match d.entries.lookup p with
  | some (.dir names) =>
    .ok ((names.map fun name => p.join (.ofText name)).mergeSort fun a b => !b.before a)
  | _ => .error (.notListable p)

instance : Storage MemoryDisk where
  readText := readText
  write := write
  isPresent d p := (d.entries.lookup p).isSome
  isFile d p := (d.contents? p).isSome
  isDir d p :=
    match d.entries.lookup p with
    | some (.dir _) => true
    | _ => false
  modified := modified
  canonicalize _ p := .ok p
  readDir := readDir
  size d := d.entries.length + 1

end MemoryDisk

end StoryBuild
