import StoryBuild.Shell.Fields
import StoryBuild.Shell.Streams
import StoryBuild.Shell.Tools.Lines

namespace StoryBuild.Shell

/-- The signal that a word names. -/
def signalOf? (word : String) : Option Nat :=
  match readDecimal word.toList with
  | some n => some n
  | none =>
    let name := if word.startsWith "SIG" then String.ofList (word.toList.drop 3) else word
    (signalNames.idxOf? name).map (· + 1)

/-- Signals that a program passes over. -/
def harmless : List Nat := [0, 17, 18, 23, 28]

/-- Signals that halt a program. -/
def halting : List Nat := [19, 20, 21, 22]

/-- Sends a signal; only the script itself can be reached. -/
def kill (args : List String) (wires : Wires) : Act Flow := do
  let (signal, targets) := match args with
    | "-s" :: name :: rest => ((signalOf? name).getD 15, rest)
    | arg :: rest =>
      if arg.startsWith "-" then ((signalOf? (String.ofList (arg.toList.drop 1))).getD 15, rest)
      else (15, arg :: rest)
    | [] => (15, [])
  if targets.contains ownNumber then
    if harmless.contains signal then done 0
    else if halting.contains signal then pure .endless
    else pure (.killed signal)
  else grumble wires "kill: No such process" 1

/-- Takes one line from the input into settings. -/
def readLine (names : List String) (wires : Wires) : Act Nat := do
  let s ← get
  let names := names.filter fun n => !n.startsWith "-"
  match byteLines (s.inputs.getD wires.input []) with
  | [] =>
    for name in names do setTo name ""
    pure 1
  | line :: rest =>
    set { s with inputs := s.inputs.set wires.input rest.flatten }
    let text := textOfBytes (line.filter (· ≠ 10))
    match names with
    | [name] => setTo name (trimText text)
    | _ =>
      let words := (fieldsOf usualBlanks [.loose text]).map Marked.text
      for (name, i) in names.zipIdx do
        if i + 1 = names.length then setTo name (" ".intercalate (words.drop i))
        else setTo name (words.getD i "")
    pure (if line.getLast? = some 10 then 0 else 1)

/-- Sets settings from words with an equals sign. -/
def setAll (words : List String) : Act Nat := do
  for word in words do
    match cutAt '=' word.toList with
    | name :: value :: rest =>
      setTo (String.ofList name) (String.ofList (gather '=' (value :: rest)))
    | _ => pure ()
  pure 0

/-- Sets settings and lets programs see them. -/
def exportAll (words : List String) : Act Nat := do
  let status ← setAll words
  let names := words.map fun w => String.ofList (w.toList.takeWhile (· ≠ '='))
  modify fun s => { s with exported := names ++ s.exported }
  pure status

/-- The name of a signal, or of the end. -/
def trapName (word : String) : String :=
  match readDecimal word.toList with
  | some 0 => "EXIT"
  | some n => signalNames.getD (n - 1) word
  | none => if word.startsWith "SIG" then String.ofList (word.toList.drop 3) else word

/-- Says what is run at signals. -/
def setTraps : List String → Act Nat
  | script :: signals => do
    let names := signals.map trapName
    modify fun s =>
      let others := s.traps.filter fun e => !names.contains e.1
      { s with traps := if script = "-" then others else names.map (·, script) ++ others }
    pure 0
  | [] => pure 0

/-- Drops parameters in front. -/
def shift (args : List String) (wires : Wires) : Act Flow := do
  let s ← get
  let count := ((args.head?.map String.toList).bind readDecimal).getD 1
  if s.params.length < count then
    let _ ← grumble wires "shift: can't shift that many" 2
    pure .exit
  else
    set { s with params := s.params.drop count, status := 0 }
    pure .onward

/-- Goes to a directory. -/
def changeDir (args : List String) (wires : Wires) : Act Flow := do
  let target := args.headD "/root"
  let s ← get
  match s.disk.locate true (pathArg target) with
  | .ok place =>
    match s.disk.node? place with
    | some (.dir _) =>
      set { s with disk := { s.disk with here := place } }
      done 0
    | _ => grumble wires s!"cd: can't cd to {target}" 2
  | .error _ => grumble wires s!"cd: can't cd to {target}" 2

/-- The number that an argument of a leaving command gives. -/
def countArg (args : List String) (usual : Nat) : Nat :=
  match args with
  | arg :: _ => ((readDecimal arg.toList).getD usual)
  | [] => usual

/-- Ends the script or a function with the status that an argument gives. -/
def leaveWith (name : String) (args : List String) (wires : Wires) (flow : Flow) : Act Flow := do
  match args with
  | [] => pure flow
  | arg :: _ =>
    match readDecimal arg.toList with
    | some status =>
      let _ ← done status
      pure flow
    | none =>
      let _ ← grumble wires s!"{name}: Illegal number: {arg}" 2
      pure .exit

/-- Changes the options and the parameters of the script. -/
def setOptions : List String → Act Flow
  | [] => done 0
  | "--" :: params => do
    modify fun s => { s with params }
    done 0
  | arg :: rest => do
    if arg.startsWith "-" then
      if arg.contains 'e' then modify fun s => { s with strict := true }
      if arg.contains 'u' then modify fun s => { s with demanding := true }
      setOptions rest
    else if arg.startsWith "+" then
      if arg.contains 'e' then modify fun s => { s with strict := false }
      setOptions rest
    else
      modify fun s => { s with params := arg :: rest }
      done 0

end StoryBuild.Shell
