import StoryBuild.Shell.Own
import StoryBuild.Shell.Reader
import StoryBuild.Shell.Sum
import StoryBuild.Shell.Tools.Table

namespace StoryBuild.Shell

/-- The text of a word that is literal throughout. -/
def literalOf? (word : Word) : Option String :=
  let texts := word.mapM fun (piece : Piece) =>
    match piece with
    | Piece.text _ s => some s
    | _ => none
  texts.map String.join

/-- The redirections that are to hold for the rest of the script, if a command is about them. -/
def lastingRedirects? : Command → Option (List Redirect)
  | .simple [] [word] redirects => if literalOf? word = some "exec" then some redirects else none
  | _ => none

mutual

/-- The chunks of a word. -/
def expand : Nat → Wires → Word → Act (List Chunk)
  | 0, _, _ => pure []
  | _, _, [] => pure []
  | n + 1, wires, piece :: rest => do
    let first ← expandPiece n wires piece
    let others ← expand n wires rest
    pure (first ++ others)

/-- The chunks of a piece. -/
def expandPiece : Nat → Wires → Piece → Act (List Chunk)
  | 0, _, _ => pure []
  | _, _, .text quoted s => pure [if quoted then .solid s else .plain s]
  | n + 1, wires, .output quoted body => do
    let index ← addBuffer
    let _ ← alone (runList n (wires.lead 1 (.buffer index)) body)
    let text := dropNewlines (textOfBytes (← bufferBytes index))
    pure [if quoted then .solid text else .loose text]
  | n + 1, wires, .sum quoted expression => do
    let text := joinChunks (← expand n wires expression)
    let s ← get
    let look := fun name => numberOf ((s.setting? name).getD "0")
    let value := toString ((sumValue look text).getD 0)
    pure [if quoted then .solid value else .loose value]
  | n + 1, wires, .param quoted name use => do
    let s ← get
    let value := s.param? name
    let wrap := fun text => if quoted then Chunk.solid text else Chunk.loose text
    match use with
    | .plain =>
      if name = "@" then
        pure ((s.params.map wrap).intersperse .border)
      else
        if value.isNone ∧ s.demanding then
          set { s with fault := some s!"{name}: parameter not set" }
        pure ((value.map wrap).toList ++ if quoted then [.solid ""] else [])
    | .length => pure [wrap (toString (value.getD "").length)]
    | .orElse evenEmpty word =>
      match value with
      | some v => if v = "" ∧ evenEmpty then expand n wires word else pure [wrap v]
      | none => expand n wires word
    | .setTo evenEmpty word =>
      match value with
      | some v => if v ≠ "" ∨ !evenEmpty then pure [wrap v] else assign n wires quoted name word
      | none => assign n wires quoted name word
    | .demand evenEmpty complaint =>
      if value.any fun v => v ≠ "" ∨ !evenEmpty then pure [wrap (value.getD "")]
      else
        let text := joinChunks (← expand n wires complaint)
        let text := if text = "" then "parameter not set" else text
        set { s with fault := some s!"{name}: {text}" }
        pure []
    | .instead evenEmpty word =>
      match value with
      | some v => if v = "" ∧ evenEmpty then pure [] else expand n wires word
      | none => pure []
    | .cutEnd longest pattern =>
      let tokens ← patternOf n wires pattern
      pure [wrap (cutOff true longest tokens (value.getD ""))]
    | .cutStart longest pattern =>
      let tokens ← patternOf n wires pattern
      pure [wrap (cutOff false longest tokens (value.getD ""))]

/-- Sets a parameter to what a word makes. -/
def assign : Nat → Wires → Bool → String → Word → Act (List Chunk)
  | 0, _, _, _, _ => pure []
  | n + 1, wires, quoted, name, word => do
    let text := joinChunks (← expand n wires word)
    setTo name text
    pure [if quoted then .solid text else .loose text]

/-- The tokens of a pattern; what stands in quotes is literal. -/
def patternOf : Nat → Wires → Word → Act (List PatternToken)
  | 0, _, _ => pure []
  | n + 1, wires, word => do
    let marked ← word.foldlM (fun (cs : List (Bool × Char)) piece => do
      let text := joinChunks (← expandPiece n wires piece)
      let quoted := match piece with
        | .text quoted _ => quoted
        | .param quoted _ _ => quoted
        | .output quoted _ => quoted
        | .sum quoted _ => quoted
      pure (cs ++ text.toList.map fun c => (quoted, c))) []
    pure (readPattern (marked.length + 1) marked)

/-- The words that a word makes. -/
def expandFields : Nat → Wires → Word → Act (List String)
  | 0, _, _ => pure []
  | n + 1, wires, word => do
    match word with
    | [.text true "", .param true "@" .plain] => pure (← get).params
    | _ =>
      let chunks ← expand n wires word
      let s ← get
      let fields := fieldsOf ((s.setting? "IFS").getD usualBlanks) chunks
      pure (fields.flatMap (unfoldField s.disk))

/-- The words that several words make. -/
def expandAll : Nat → Wires → List Word → Act (List String)
  | 0, _, _ => pure []
  | _, _, [] => pure []
  | n + 1, wires, word :: rest => do
    let first ← expandFields n wires word
    let others ← expandAll n wires rest
    pure (first ++ others)

/-- Leads streams elsewhere, or says why that cannot be. -/
def lead : Nat → Wires → List Redirect → Act (Except String Wires)
  | 0, _, _ => pure (.error "too deep")
  | _, wires, [] => pure (.ok wires)
  | n + 1, wires, .to stream kind target :: rest => do
    let target := joinChunks (← expand n wires target)
    match kind with
    | .inlay => lead n { wires with input := ← addInput target.toUTF8.toList } rest
    | .copy =>
      match readDecimal target.toList with
      | some other => lead n (wires.lead stream (wires.sink other)) rest
      | none => lead n (wires.lead stream .void) rest
    | .read =>
      match ← openInput target with
      | .ok input => lead n { wires with input } rest
      | .error message => pure (.error message)
    | .write =>
      match ← openSink wires false target with
      | .ok sink => lead n (wires.lead stream sink) rest
      | .error message => pure (.error message)
    | .append =>
      match ← openSink wires true target with
      | .ok sink => lead n (wires.lead stream sink) rest
      | .error message => pure (.error message)

/-- Runs commands one after the other. -/
def runList : Nat → Wires → List Command → Act Flow
  | 0, _, _ => pure .endless
  | _, _, [] => pure .onward
  | n + 1, wires, command :: rest => do
    match lastingRedirects? command with
    | some redirects =>
      match ← lead n wires redirects with
      | .ok wires => runList n wires rest
      | .error message =>
        let _ ← grumble wires message 2
        pure .exit
    | none =>
      match ← runCommand n wires command with
      | .onward => runList n wires rest
      | flow => pure flow

/-- Runs the parts of a pipe. -/
def runPipe : Nat → Wires → List Command → Act Flow
  | 0, _, _ => pure .endless
  | _, _, [] => pure .onward
  | n + 1, wires, [last] => do pure (enclosed (← alone (runCommand n wires last)))
  | n + 1, wires, first :: rest => do
    let index ← addBuffer
    match enclosed (← alone (runCommand n (wires.lead 1 (.buffer index)) first)) with
    | .onward =>
      let input ← addInput (← bufferBytes index)
      runPipe n { wires with input } rest
    | flow => pure flow

/-- Runs commands with some streams led elsewhere. -/
def runWithin : Nat → Wires → List Redirect → List Command → Act Flow
  | 0, _, _, _ => pure .endless
  | n + 1, wires, redirects, body => do
    match ← lead n wires redirects with
    | .ok wires => runList n wires body
    | .error message => grumble wires message 2

/-- Runs a loop. The status of the last turn is kept in front of the test. -/
def runLoop : Nat → Wires → Bool → List Command → List Command → Nat → Act Flow
  | 0, _, _, _, _, _ => pure .endless
  | n + 1, wires, whileTrue, test, body, status => do
    match ← runList n { wires with lenient := true } test with
    | .onward =>
      if ((← get).status = 0) = whileTrue then
        let flow ← runList n wires body
        if turns flow then runLoop n wires whileTrue test body (← get).status
        else pure (outside flow)
      else done status
    | flow => pure (outside flow)

/-- Runs a body for every word. -/
def runEach : Nat → Wires → String → List String → List Command → Act Flow
  | 0, _, _, _, _ => pure .endless
  | _, _, _, [], _ => pure .onward
  | n + 1, wires, name, word :: rest, body => do
    setTo name word
    let flow ← runList n wires body
    if turns flow then runEach n wires name rest body else pure (outside flow)

/-- Runs the first branch whose test succeeds. -/
def runBranches : Nat → Wires → List (List Command × List Command) → List Command → Act Flow
  | 0, _, _, _ => pure .endless
  | n + 1, wires, [], otherwise => do
    modify fun s => { s with status := 0 }
    runList n wires otherwise
  | n + 1, wires, (test, body) :: rest, otherwise => do
    match ← runList n { wires with lenient := true } test with
    | .onward =>
      if (← get).status = 0 then runList n wires body else runBranches n wires rest otherwise
    | flow => pure flow

/-- Whether one of some patterns matches a text. -/
def anyMatches : Nat → Wires → String → List Word → Act Bool
  | 0, _, _, _ => pure false
  | _, _, _, [] => pure false
  | n + 1, wires, subject, word :: rest => do
    if patternMatches (← patternOf n wires word) subject.toList then pure true
    else anyMatches n wires subject rest

/-- Runs the first branch with a pattern that matches. -/
def runChoices : Nat → Wires → String → List (List Word × List Command) → Act Flow
  | 0, _, _, _ => pure .endless
  | _, _, _, [] => done 0
  | n + 1, wires, subject, (patterns, body) :: rest => do
    if ← anyMatches n wires subject patterns then runList n wires body
    else runChoices n wires subject rest

/-- Runs a whole script given as text. -/
def runText : Nat → Wires → String → Act Flow
  | 0, _, _ => pure .endless
  | n + 1, wires, script =>
    match parse script with
    | some commands => runList n wires commands
    | none => do
      let _ ← grumble wires s!"Syntax error: {syntaxFault script}" 2
      pure .exit

/-- Runs a shell in the shell. -/
def runShell : Nat → Wires → List String → Act Flow
  | 0, _, _ => pure .endless
  | n + 1, wires, args => do
    match args with
    | "-c" :: script :: rest =>
      let name := rest.headD "sh"
      modify fun s => { s with name, params := rest.drop 1, functions := [], status := 0 }
      runText n wires script
    | file :: rest =>
      match (← get).disk.readBytes (pathArg file) with
      | .ok content =>
        modify fun s => { s with name := file, params := rest, functions := [], status := 0 }
        runText n wires (textOfBytes content.toList)
      | .error fault => do
        let text := if fault = .noEntry then "No such file" else faultText fault
        complain wires s!"sh: 0: cannot open {file}: {text}"
        done 2
    | [] => do
      let script ← takeInput wires
      runText n wires (textOfBytes script)

/-- Runs a shell that sees what programs see, and what it wants run at its end. -/
def runInner : Nat → Wires → List String → Act Flow
  | 0, _, _ => pure .endless
  | n + 1, wires, args => do
    modify fun s =>
      { s with
        settings := s.settings.filter fun e => s.exported.contains e.1
        strict := false, demanding := false, traps := [] }
    let flow ← runShell n wires args
    let s ← get
    match flow, s.traps.lookup "EXIT" with
    | .killed signal, _ => pure (.killed signal)
    | .endless, _ => pure .endless
    | flow, some script =>
      let _ ← runText n wires script
      modify fun t => { t with status := s.status }
      pure flow
    | flow, none => pure flow

/-- Runs a program or one of the shell's own commands. -/
def call : Nat → Wires → String → List String → Act Flow
  | 0, _, _, _ => pure .endless
  | n + 1, wires, name, args => do
    let s ← get
    match s.functions.lookup name with
    | some body =>
      set { s with params := args }
      let flow ← runCommand n wires body
      modify fun t => { t with params := s.params }
      pure (if flow = .back then .onward else flow)
    | none =>
      match name with
      | ":" => done 0
      | "exit" => leaveWith name args wires .exit
      | "return" => leaveWith name args wires .back
      | "break" =>
        let _ ← done 0
        pure (.leave (countArg args 1))
      | "continue" =>
        let _ ← done 0
        pure (.again (countArg args 1))
      | "cd" => changeDir args wires
      | "shift" => shift args wires
      | "set" => setOptions args
      | "export" => done (← exportAll args)
      | "readonly" => done (← setAll args)
      | "local" => done (← setAll args)
      | "unset" =>
        set { s with settings := s.settings.filter fun e => !args.contains e.1, status := 0 }
        pure .onward
      | "read" => done (← readLine args wires)
      | "eval" => runText n wires (" ".intercalate args)
      | "exec" =>
        match args with
        | [] => done 0
        | program :: rest =>
          match ← call n wires program rest with
          | .onward => pure .exit
          | flow => pure flow
      | "command" =>
        match args with
        | [] => done 0
        | ["-v", program] => showProgram wires program ""
        | program :: rest => call n wires program rest
      | "type" =>
        let program := args.headD ""
        showProgram wires program s!"{program} is "
      | "." => runFile n wires args
      | "trap" => done (← setTraps args)
      | "kill" =>
        match ← kill args wires with
        | .killed signal =>
          match s.traps.lookup (signalNames.getD (signal - 1) "") with
          | some script => runText n wires script
          | none => pure (.killed signal)
        | flow => pure flow
      | "echo" => done (← echo true args wires)
      | "env" => runNamed n wires args
      | _ =>
        if idleNames.contains name then done 0
        else if shellNames.contains (bareName name) then
          match ← alone (runInner n wires args) with
          | .endless => pure .endless
          | .killed k =>
            complain wires (deathText k)
            done (128 + k)
          | _ => pure .onward
        else
          match program? (bareName name) with
          | some run => ended (← run args wires)
          | none =>
            if name.contains '/' ∧ (s.disk.find (pathArg name)).toOption.isSome then
              grumble wires s!"{name}: Permission denied" 126
            else grumble wires s!"{name}: not found" 127

/-- Runs the script in a file as a part of this one. -/
def runFile : Nat → Wires → List String → Act Flow
  | 0, _, _ => pure .endless
  | _, _, [] => done 0
  | n + 1, wires, file :: _ => do
    match (← get).disk.readBytes (pathArg file) with
    | .ok content =>
      match ← runText n wires (textOfBytes content.toList) with
      | .back => pure .onward
      | flow => pure flow
    | .error _ =>
      let _ ← grumble wires s!".: cannot open {file}: No such file" 2
      pure .exit

/-- Runs a program behind some settings. -/
def runNamed : Nat → Wires → List String → Act Flow
  | 0, _, _ => pure .endless
  | _, _, [] => done 0
  | n + 1, wires, name :: args => do
    if name.contains '=' then
      alone do
        let _ ← exportAll [name]
        runNamed n wires args
    else call n wires name args

/-- Runs a command. -/
def runCommand : Nat → Wires → Command → Act Flow
  | 0, _, _ => pure .endless
  | n + 1, wires, command => do
    match command with
    | .simple settings words redirects =>
      let fields ← expandAll n wires words
      match ← lead n wires redirects with
      | .error message => grumble wires message 2
      | .ok inner =>
        let before ← get
        modify fun s => { s with status := if fields.isEmpty then 0 else s.status }
        for (name, value) in settings do
          setTo name (joinChunks (← expand n wires value))
        match (← get).fault, fields with
        | some fault, _ =>
          modify fun s => { s with fault := none }
          let _ ← grumble wires fault 2
          pure .exit
        | none, [] => strictly wires .onward
        | none, name :: args =>
          modify fun s => { s with exported := settings.map Prod.fst ++ s.exported }
          let flow ← call n inner name args
          if !settings.isEmpty then
            modify fun s => { s with settings := before.settings, exported := before.exported }
          strictly wires flow
    | .pipe negated parts =>
      let inner := { wires with lenient := wires.lenient || negated }
      let flow ← match parts with
        | [one] => runCommand n inner one
        | parts => runPipe n inner parts
      if negated ∧ flow = .onward then done (if (← get).status = 0 then 1 else 0)
      else strictly inner flow
    | .chain onSuccess first second =>
      match ← runCommand n { wires with lenient := true } first with
      | .onward =>
        if ((← get).status = 0) = onSuccess then runCommand n wires second else pure .onward
      | flow => pure flow
    | .group isolated body redirects =>
      if isolated then strictly wires (enclosed (← alone (runWithin n wires redirects body)))
      else runWithin n wires redirects body
    | .cond branches otherwise redirects =>
      match ← lead n wires redirects with
      | .ok wires => runBranches n wires branches otherwise
      | .error message => grumble wires message 2
    | .loop whileTrue test body redirects =>
      match ← lead n wires redirects with
      | .ok wires => runLoop n wires whileTrue test body 0
      | .error message => grumble wires message 2
    | .each name words body redirects =>
      match ← lead n wires redirects with
      | .ok inner =>
        let fields ← match words with
          | some words => expandAll n wires words
          | none => pure (← get).params
        let _ ← done 0
        runEach n inner name fields body
      | .error message => grumble wires message 2
    | .choose word choices redirects =>
      let subject := joinChunks (← expand n wires word)
      match ← lead n wires redirects with
      | .ok wires => runChoices n wires subject choices
      | .error message => grumble wires message 2
    | .define name body =>
      modify fun s => { s with functions := (name, body) :: s.functions, status := 0 }
      pure .onward

end

end StoryBuild.Shell
