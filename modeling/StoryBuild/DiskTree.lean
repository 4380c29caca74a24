import StoryBuild.Path.Extension
import StoryBuild.Path.Normal
import StoryBuild.Storage

namespace StoryBuild

/-- What stands at a place. -/
inductive Node where
  | file (content : ByteArray) (modified : Nat)
  | dir (modified : Nat)
  | link (target : String)

/-- The nodes below the root, the working directory, and the time of the next change. A place is the
list of names that leads to it from the root. -/
structure DiskTree where
  nodes : List (List String × Node) := []
  here : List String := []
  clock : Nat := 2000000000

namespace DiskTree

/-- What stands at a place. The root is a directory. -/
def node? (t : DiskTree) (place : List String) : Option Node :=
  if place = [] then some (.dir 0) else t.nodes.lookup place

/-- Puts a node at a place. -/
def put (t : DiskTree) (place : List String) (node : Node) : DiskTree :=
  { t with nodes := (place, node) :: t.nodes.filter fun e => e.1 ≠ place }

/-- Takes away a place and everything below it. -/
def drop (t : DiskTree) (place : List String) : DiskTree :=
  { t with nodes := t.nodes.filter fun e => !place.isPrefixOf e.1 }

/-- The names in a text between slashes; dots name nothing. -/
def namesOf (text : String) : List String :=
  ((cutAt '/' text.toList).filter fun piece => !Path.isFiller piece).map String.ofList

/-- Where a text starts: at the root if a slash is in front. -/
def startOf (place : List String) (text : String) : List String :=
  if text.startsWith "/" then [] else place

/-- How many links a walk may follow. -/
def linkBound : Nat := 40

/-- Walks from a place along names. The last name need not be there; a link in the last place is
followed on request. -/
def walk (t : DiskTree) (followLast : Bool) (links : Nat) (place names : List String) :
    Except SystemFault (List String) :=
  match names with
  | [] => .ok place
  | name :: rest =>
    match t.node? place with
    | some (.dir _) =>
      if name = ".." then t.walk followLast links place.dropLast rest
      else
        match t.node? (place ++ [name]), links with
        | some (.link target), left =>
          if rest = [] ∧ followLast = false then .ok (place ++ [name])
          else
            match left with
            | 0 => .error .tooManyLinks
            | left + 1 => t.walk followLast left (startOf place target) (namesOf target ++ rest)
        | some _, links => t.walk followLast links (place ++ [name]) rest
        | none, _ => if rest = [] then .ok (place ++ [name]) else .error .noEntry
    | some _ => .error .notDirectory
    | none => .error .noEntry
termination_by (links, names.length)

/-- Whether a text ends in a way that only a directory answers to. -/
def wantsDir (text : String) : Bool :=
  match (cutAt '/' text.toList).getLast? with
  | some piece => Path.isFiller piece
  | none => false

/-- The place that a path leads to. -/
def locate (t : DiskTree) (followLast : Bool) (p : Path) : Except SystemFault (List String) :=
  if p.text = "" then .error .noEntry
  else do
    let place ← t.walk (followLast || wantsDir p.text) linkBound (startOf t.here p.text)
      (namesOf p.text)
    match t.node? place with
    | some (.file _ _) => if wantsDir p.text then .error .notDirectory else .ok place
    | _ => .ok place

/-- The node that a path leads to, links followed. -/
def find (t : DiskTree) (p : Path) : Except SystemFault Node := do
  match t.node? (← t.locate true p) with
  | some node => .ok node
  | none => .error .noEntry

/-- The bytes of a file. -/
def readBytes (t : DiskTree) (p : Path) : Except SystemFault ByteArray := do
  match ← t.find p with
  | .file content _ => .ok content
  | _ => .error .isDirectory

/-- The text of a file. -/
def readText (t : DiskTree) (p : Path) : Except SystemFault String := do
  match decodeText (← t.readBytes p) with
  | .ok s => .ok s
  | .error _ => .error .notText

/-- Whether a path leads to a directory. -/
def isDir (t : DiskTree) (p : Path) : Bool :=
  match t.find p with
  | .ok (.dir _) => true
  | _ => false

/-- Whether a path leads to a file. -/
def isFile (t : DiskTree) (p : Path) : Bool :=
  match t.find p with
  | .ok (.file _ _) => true
  | _ => false

/-- Makes one directory. -/
def makeDir (t : DiskTree) (p : Path) : Except SystemFault DiskTree := do
  let place ← t.locate false p
  match t.node? place with
  | some _ => .error .present
  | none => .ok (t.put place (.dir t.clock))

/-- Makes a directory and those above it. The steps allowed are at least the parts of the path. -/
def makeDirs : Nat → DiskTree → Path → Except SystemFault DiskTree
  | 0, _, _ => .error .noEntry
  | steps + 1, t, p =>
    if p.text = "" then .ok t
    else
      match t.makeDir p with
      | .ok t => .ok t
      | .error .noEntry =>
        match p.parent? with
        | none => .error .noEntry
        | some above => do
          let t ← makeDirs steps t above
          match t.makeDir p with
          | .ok t => .ok t
          | .error fault => if t.isDir p then .ok t else .error fault
      | .error fault => if t.isDir p then .ok t else .error fault

/-- Makes a directory with all that are missing above it. -/
def makeAllDirs (t : DiskTree) (p : Path) : Except SystemFault DiskTree :=
  makeDirs (p.parts.length + 2) t p

/-- Creates or replaces a file in place. -/
def create (t : DiskTree) (p : Path) (content : ByteArray) : Except SystemFault DiskTree := do
  let place ← t.locate true p
  match t.node? place with
  | some (.dir _) => .error .isDirectory
  | _ =>
    if wantsDir p.text then .error .isDirectory
    else .ok { t.put place (.file content t.clock) with clock := t.clock + 1 }

/-- Gives a file another path. A file already there is replaced, a directory is not. -/
def rename (t : DiskTree) (source target : Path) : Except SystemFault DiskTree := do
  let origin ← t.locate false source
  let goal ← t.locate false target
  match t.node? origin, t.node? goal with
  | none, _ => .error .noEntry
  | some _, some (.dir _) => .error .isDirectory
  | some node, _ => .ok ((t.drop origin).put goal node)

/-- Removes a file or a link. -/
def removeFile (t : DiskTree) (p : Path) : Except SystemFault DiskTree := do
  let place ← t.locate false p
  match t.node? place with
  | none => .error .noEntry
  | some (.dir _) => .error .isDirectory
  | some _ => .ok (t.drop place)

/-- The path with the text of a place. -/
def pathOf (place : List String) : Path :=
  .ofText ("/" ++ "/".intercalate place)

/-- The one path without links, dots and steps up that leads to the same place. -/
def canonicalize (t : DiskTree) (p : Path) : Except SystemFault Path := do
  let place ← t.locate true p
  match t.node? place with
  | some _ => .ok (pathOf place)
  | none => .error .noEntry

/-- The names in a directory. -/
def list (t : DiskTree) (p : Path) : Except SystemFault (List String) := do
  let place ← t.locate true p
  match t.node? place with
  | some (.dir _) =>
    .ok (t.nodes.filterMap fun e =>
      if e.1.dropLast = place ∧ e.1 ≠ [] then e.1.getLast? else none)
  | some _ => .error .notDirectory
  | none => .error .noEntry

/-- The path beside a path under which its content is prepared. -/
def draftOf (p : Path) : Path :=
  match p.fileName? with
  | some name => (p.parent?.getD (.ofText "")).join (.ofText (name ++ ".tmp"))
  | none => p.join (.ofText ".tmp")

/-- Says what was being done when something failed. -/
def during {α : Type} (task : FileTask) (r : Except SystemFault α) : Except IoError α :=
  r.mapError (.system task)

/-- The directory for a file that is to be written. -/
def prepareDir (t : DiskTree) (p : Path) : Except IoError DiskTree :=
  match p.parent? with
  | some above => during (.makeDir above) (t.makeAllDirs above)
  | none => .ok t

/-- Replaces a file at once: its content is written beside it and then put in its place. If the
last step fails, the draft stays. -/
def write (t : DiskTree) (p : Path) (content : ByteArray) : Except IoError Unit × DiskTree :=
  let draft := draftOf p
  match t.prepareDir p with
  | .error e => (.error e, t)
  | .ok t =>
    match during (.createTemp draft) (t.create draft content) with
    | .error e => (.error e, t)
    | .ok t =>
      match during (.rename draft p) (t.rename draft p) with
      | .error e => (.error e, t)
      | .ok t => (.ok (), t)

/-- When a file or a directory was last changed. -/
def modified (t : DiskTree) (p : Path) : Except SystemFault Nat := do
  match ← t.find p with
  | .file _ time => .ok time
  | .dir time => .ok time
  | .link _ => .error .noEntry

/-- More directories than any walk meets: a path follows a bounded number of links. -/
def walkBound (t : DiskTree) : Nat :=
  Nat.pow (t.nodes.length + 2) (linkBound + 2)

instance : Storage DiskTree where
  readText t p := during (.read p) (t.readText p)
  write := write
  isPresent t p := (t.find p).toOption.isSome
  isFile := isFile
  isDir := isDir
  modified t p := (during (.metadata p) (t.modified p), t)
  canonicalize t p := during (.canonicalize p) (t.canonicalize p)
  readDir t p :=
    (during (.list p) (t.list p)).map fun names =>
      (names.map fun name => p.join (.ofText name)).mergeSort fun a b => !b.before a
  size := walkBound

/-- Adds a node with the directories above it. -/
def plant (t : DiskTree) (place : List String) (node : Node) : DiskTree :=
  let above := ((List.range place.length).map place.take).filter fun q => (t.node? q).isNone
  { (above.foldl (fun t q => t.put q (.dir t.clock)) t).put place node with
    clock := t.clock + 1 }

/-- The regular files below a place, by the rest of their paths. -/
def filesBelow (t : DiskTree) (place : List String) : List (String × ByteArray) :=
  t.nodes.filterMap fun e =>
    match e.2 with
    | .file content _ =>
      if place.isPrefixOf e.1 then
        some ("/".intercalate (e.1.drop place.length), content)
      else none
    | _ => none

/-- How a path on the disk is seen from a root. Where the texts do not show it, the real places
are compared; for a file that is gone the place of its directory decides. -/
def seenFrom (t : DiskTree) (root p : Path) : Option Path :=
  match Path.stripPrefix? root p with
  | some rest => rest.normalize
  | none => do
    let base ← (t.canonicalize root).toOption
    let real ← match t.canonicalize p with
      | .ok real => some real
      | .error _ => do
        let above ← (t.canonicalize (← p.parent?)).toOption
        some (above.join (.ofText (← p.fileName?)))
    let rest ← Path.stripPrefix? base real
    rest.normalize

end DiskTree

end StoryBuild
