import StoryBuild.Compiler.Child
import StoryBuild.DiskTree
import StoryBuild.Shell.Basic

namespace StoryBuild.Shell

/-- Where output goes. -/
inductive Sink where
  | channel (c : Channel)
  | file (p : Path)
  | buffer (index : Nat)
  | void

/-- Where a command reads from, and where each of its streams goes. -/
structure Wires where
  input : Nat := 0
  sinks : List (Nat × Sink) := [(1, .channel .out), (2, .channel .err)]
  /-- Whether a failure of the command is looked at, so that it does not end the script. -/
  lenient : Bool := false

/-- The state of a running script. -/
structure Scene where
  disk : DiskTree
  settings : List (String × String) := []
  /-- The settings that programs get to see. -/
  exported : List String := []
  functions : List (String × Command) := []
  /-- What is run at a signal, or at the end. -/
  traps : List (String × String) := []
  name : String := "sh"
  params : List String := []
  status : Nat := 0
  /-- Whether a failure that nothing looks at ends the script. -/
  strict : Bool := false
  /-- Whether a parameter that is not set is a fault. -/
  demanding : Bool := false
  /-- What was wrong with a word. -/
  fault : Option String := none
  millis : Nat := 0
  /-- The time after which nothing happens any more. -/
  patience : Nat := forever
  /-- What was printed on the two streams, the latest first. -/
  printed : List (Channel × List UInt8) := []
  buffers : List (List UInt8) := []
  inputs : List (List UInt8) := [[]]

/-- How a command leaves the script: it goes on, ends the script, was killed, leaves or repeats
some loops, leaves a function, or never ends. -/
inductive Flow where
  | onward
  | exit
  | killed (signal : Nat)
  | leave (loops : Nat)
  | again (loops : Nat)
  | back
  | endless
  deriving DecidableEq, Inhabited

/-- Steps of a script. -/
abbrev Act := StateM Scene

namespace Wires

/-- Where a stream goes. -/
def sink (wires : Wires) (stream : Nat) : Sink :=
  (wires.sinks.lookup stream).getD .void

/-- Leads a stream elsewhere. -/
def lead (wires : Wires) (stream : Nat) (sink : Sink) : Wires :=
  { wires with sinks := (stream, sink) :: wires.sinks.filter fun e => e.1 ≠ stream }

end Wires

/-- Adds bytes to the end of a file. -/
def appendTo (disk : DiskTree) (p : Path) (bytes : List UInt8) : DiskTree :=
  let old := (disk.readBytes p).toOption.getD .empty
  match disk.create p (old ++ ⟨bytes.toArray⟩) with
  | .ok disk => disk
  | .error _ => disk

/-- Writes bytes to a sink. -/
def emit (sink : Sink) (bytes : List UInt8) : Act Unit :=
  modify fun s =>
    match sink with
    | .void => s
    | .channel c => { s with printed := (c, bytes) :: s.printed }
    | .file p => { s with disk := appendTo s.disk p bytes }
    | .buffer i => { s with buffers := s.buffers.modify i fun old => old ++ bytes }

/-- Writes bytes to the first stream. -/
def say (wires : Wires) (bytes : List UInt8) : Act Unit :=
  emit (wires.sink 1) bytes

/-- Writes a text to the first stream. -/
def sayText (wires : Wires) (s : String) : Act Unit :=
  say wires s.toUTF8.toList

/-- Writes a line to the second stream. -/
def complain (wires : Wires) (s : String) : Act Unit :=
  emit (wires.sink 2) (s ++ "\n").toUTF8.toList

/-- Everything that is left to be read. -/
def takeInput (wires : Wires) : Act (List UInt8) := do
  let s ← get
  set { s with inputs := s.inputs.set wires.input [] }
  pure (s.inputs.getD wires.input [])

/-- Adds an input and returns its number. -/
def addInput (bytes : List UInt8) : Act Nat := do
  let s ← get
  set { s with inputs := s.inputs ++ [bytes] }
  pure s.inputs.length

/-- Adds a buffer and returns its number. -/
def addBuffer : Act Nat := do
  let s ← get
  set { s with buffers := s.buffers ++ [[]] }
  pure s.buffers.length

/-- What a buffer holds. -/
def bufferBytes (index : Nat) : Act (List UInt8) := do
  pure ((← get).buffers.getD index [])

/-- Bytes as text; bytes that are no text are left out. -/
def textOfBytes (bytes : List UInt8) : String :=
  match decodeText ⟨bytes.toArray⟩ with
  | .ok s => s
  | .error _ => String.ofList ((bytes.filter (· < 128)).map fun b => Char.ofNat b.toNat)

/-- The value of a setting. -/
def Scene.setting? (s : Scene) (name : String) : Option String :=
  s.settings.lookup name

/-- Sets a setting. -/
def setTo (name value : String) : Act Unit :=
  modify fun s =>
    { s with settings := (name, value) :: s.settings.filter fun e => e.1 ≠ name }

/-- The number by which a script knows itself. -/
def ownNumber : String := "4242"

/-- The wording of a fault in messages of programs. -/
def faultText (fault : SystemFault) : String :=
  String.ofList ((fault.message.toList.reverse.dropWhile (· ≠ '(')).drop 2).reverse

end StoryBuild.Shell
