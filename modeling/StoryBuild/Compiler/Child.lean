import StoryBuild.Storage

namespace StoryBuild

/-- The two streams that a program writes to. -/
inductive Channel where
  | out
  | err
  deriving DecidableEq, Inhabited

/-- How a program ended. -/
inductive ChildExit where
  | status (code : Nat)
  | signal (number : Nat)
  deriving DecidableEq, Inhabited

/-- The names of the signals, from one on. -/
def signalNames : List String :=
  ["HUP", "INT", "QUIT", "ILL", "TRAP", "ABRT", "BUS", "FPE", "KILL", "USR1", "SEGV", "USR2",
    "PIPE", "ALRM", "TERM", "STKFLT", "CHLD", "CONT", "STOP", "TSTP", "TTIN", "TTOU", "URG",
    "XCPU", "XFSZ", "VTALRM", "PROF", "WINCH", "IO", "PWR", "SYS"]

namespace ChildExit

/-- Whether a program ended well. -/
def isSuccess (e : ChildExit) : Bool :=
  e == .status 0

/-- The wording of an end. -/
def text : ChildExit → String
  | status code => s!"exit status: {code}"
  | signal number =>
    match signalNames[number - 1]? with
    | some name => s!"signal: {number} (SIG{name})"
    | none => s!"signal: {number}"

end ChildExit

/-- The milliseconds that stand for never. -/
def forever : Nat := Nat.pow 10 15

/-- A run of a program: its output in order of time, its end, and how long it took. -/
structure ChildRun where
  output : List (Channel × List UInt8)
  exit : ChildExit
  millis : Nat := 0

/-- One stream as it is read: whether it is still read, and the bytes of an unfinished line, the
last first. -/
structure LineReader where
  isOpen : Bool := true
  started : List UInt8 := []

/-- The text of a line. -/
def lineText (bytes : List UInt8) : Option String :=
  (decodeText ⟨bytes.toArray⟩).toOption

/-- A carriage return at the end of a line goes with the newline. The bytes come last first. -/
def dropReturnByte : List UInt8 → List UInt8
  | 13 :: rest => rest
  | bytes => bytes

namespace LineReader

/-- Takes one byte; at a newline a line is ready. -/
def feed (state : List String × LineReader) (b : UInt8) : List String × LineReader :=
  let (lines, r) := state
  if !r.isOpen then state
  else if b = 10 then
    match lineText (dropReturnByte r.started).reverse with
    | some line => (lines ++ [line], {})
    | none => (lines, { isOpen := false })
  else (lines, { r with started := b :: r.started })

/-- The line that was left unfinished at the end, if there is one. -/
def finish (r : LineReader) : List String :=
  if r.isOpen && !r.started.isEmpty then (lineText r.started.reverse).toList else []

end LineReader

/-- The lines of both streams so far, and the readers of the streams. -/
structure Relay where
  lines : List String := []
  out : LineReader := {}
  err : LineReader := {}

/-- Takes a piece of output. -/
def Relay.feed (r : Relay) (piece : Channel × List UInt8) : Relay :=
  match piece.1 with
  | .out =>
    let (lines, out) := piece.2.foldl LineReader.feed ([], r.out)
    { r with lines := r.lines ++ lines, out }
  | .err =>
    let (lines, err) := piece.2.foldl LineReader.feed ([], r.err)
    { r with lines := r.lines ++ lines, err }

/-- The lines of a program's output. -/
def relayedLines (output : List (Channel × List UInt8)) : List String :=
  let r := output.foldl Relay.feed {}
  r.lines ++ r.out.finish ++ r.err.finish

/-- A storage on a machine that runs programs. A program may change the storage. -/
class Machine (σ : Type) extends Storage σ where
  /-- Runs a program with arguments in a directory. What it does after some milliseconds is left
  out. -/
  launch : σ → Nat → Path → String → List String → Except SystemFault ChildRun × σ
  readBytes : σ → Path → Except SystemFault ByteArray
  removeFile : σ → Path → Except SystemFault σ
  makeDirs : σ → Path → Except SystemFault σ

end StoryBuild
