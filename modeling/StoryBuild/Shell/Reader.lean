import StoryBuild.Shell.Inlay

namespace StoryBuild.Shell

mutual

/-- A word. Nothing is read where none starts. -/
def readWord : Nat → List Char → Option (Word × List Char)
  | 0, _ => none
  | _, [] => some ([], [])
  | n + 1, '\\' :: '\n' :: cs => readWord n cs
  | n + 1, '\\' :: c :: cs => (readWord n cs).map (addPiece (charPiece true c))
  | n + 1, '\x27' :: cs => do
    let body := cs.takeWhile (· ≠ '\x27')
    let rest ← dropLead ['\x27'] (cs.dropWhile (· ≠ '\x27'))
    (readWord n rest).map (addPiece (.text true (String.ofList body)))
  | n + 1, '\x22' :: cs => do
    let (pieces, rest) ← readInside n '\x22' cs
    (readWord n rest).map fun r => (.text true "" :: pieces ++ r.1, r.2)
  | n + 1, '$' :: cs => do
    let (piece, rest) ← readValue n false cs
    (readWord n rest).map (addPiece piece)
  | n + 1, '\x60' :: cs => do
    let (body, rest) ← readTicks cs
    let (commands, _) ← readList n body
    (readWord n rest).map (addPiece (.output false commands))
  | n + 1, c :: cs =>
    if isMeta c then some ([], c :: cs)
    else (readWord n cs).map (addPiece (charPiece false c))

/-- Pieces up to a closing character, in quotes. -/
def readInside : Nat → Char → List Char → Option (Word × List Char)
  | 0, _, _ => none
  | _, _, [] => none
  | n + 1, close, '\\' :: '\n' :: cs => readInside n close cs
  | n + 1, close, '\\' :: c :: cs =>
    if c = '$' ∨ c = '\x60' ∨ c = '\x22' ∨ c = '\\' ∨ c = close then
      (readInside n close cs).map (addPiece (charPiece true c))
    else
      (readInside n close cs).map fun r => (charPiece true '\\' :: charPiece true c :: r.1, r.2)
  | n + 1, close, '$' :: cs => do
    let (piece, rest) ← readValue n true cs
    (readInside n close rest).map (addPiece piece)
  | n + 1, close, '\x60' :: cs => do
    let (body, rest) ← readTicks cs
    let (commands, _) ← readList n body
    (readInside n close rest).map (addPiece (.output true commands))
  | n + 1, close, c :: cs =>
    if c = close then some ([], cs)
    else (readInside n close cs).map (addPiece (charPiece true c))

/-- Pieces up to a closing brace; quotes may stand among them. -/
def readBraced : Nat → Bool → List Char → Option (Word × List Char)
  | 0, _, _ => none
  | _, _, [] => none
  | _, _, '\x7d' :: cs => some ([], cs)
  | n + 1, quoted, '\\' :: c :: cs =>
    (readBraced n quoted cs).map (addPiece (charPiece true c))
  | n + 1, quoted, '\x27' :: cs =>
    if quoted then (readBraced n quoted cs).map (addPiece (charPiece true '\x27'))
    else do
      let body := cs.takeWhile (· ≠ '\x27')
      let rest ← dropLead ['\x27'] (cs.dropWhile (· ≠ '\x27'))
      (readBraced n quoted rest).map (addPiece (.text true (String.ofList body)))
  | n + 1, quoted, '\x22' :: cs => do
    let (pieces, rest) ← readInside n '\x22' cs
    (readBraced n quoted rest).map fun r => (pieces ++ r.1, r.2)
  | n + 1, quoted, '$' :: cs => do
    let (piece, rest) ← readValue n quoted cs
    (readBraced n quoted rest).map (addPiece piece)
  | n + 1, quoted, c :: cs => (readBraced n quoted cs).map (addPiece (charPiece quoted c))

/-- What follows a dollar sign. -/
def readValue : Nat → Bool → List Char → Option (Piece × List Char)
  | 0, _, _ => none
  | n + 1, quoted, '(' :: '(' :: cs => do
    let (body, rest) ← readSumText 0 cs
    let (pieces, _) ← readInside n '\x22' (body ++ ['\x22'])
    pure (.sum quoted pieces, rest)
  | n + 1, quoted, '(' :: cs => do
    let (commands, rest) ← readList n cs
    let rest ← dropLead [')'] rest
    pure (.output quoted commands, rest)
  | n + 1, quoted, '\x7b' :: cs => readParam n quoted cs
  | _, quoted, c :: cs =>
    if c ∈ ['@', '*', '#', '?', '$', '!', '-'] ∨ c.isDigit then
      some (.param quoted (String.singleton c) .plain, cs)
    else
      match (c :: cs).takeWhile isNameChar with
      | [] => some (charPiece quoted '$', c :: cs)
      | name => some (.param quoted (String.ofList name) .plain, (c :: cs).dropWhile isNameChar)
  | _, quoted, [] => some (charPiece quoted '$', [])

/-- A parameter in braces. -/
def readParam : Nat → Bool → List Char → Option (Piece × List Char)
  | 0, _, _ => none
  | n + 1, quoted, cs =>
    let readName (cs : List Char) : List Char × List Char :=
      match cs.takeWhile isNameChar with
      | [] => (cs.take 1, cs.drop 1)
      | name => (name, cs.dropWhile isNameChar)
    let useIn (quotes : Bool) (name : List Char) (f : Word → ParamUse) (cs : List Char) :
        Option (Piece × List Char) :=
      (readBraced n quotes cs).map fun r => (.param quoted (String.ofList name) (f r.1), r.2)
    let use := useIn quoted
    match cs with
    | '#' :: '\x7d' :: rest => some (.param quoted "#" .plain, rest)
    | '#' :: rest =>
      let (name, rest) := readName rest
      (dropLead ['\x7d'] rest).map fun rest => (.param quoted (String.ofList name) .length, rest)
    | _ =>
      let (name, rest) := readName cs
      match rest with
      | '\x7d' :: rest => some (.param quoted (String.ofList name) .plain, rest)
      | ':' :: '-' :: rest => use name (.orElse true) rest
      | '-' :: rest => use name (.orElse false) rest
      | ':' :: '=' :: rest => use name (.setTo true) rest
      | '=' :: rest => use name (.setTo false) rest
      | ':' :: '?' :: rest => use name (.demand true) rest
      | '?' :: rest => use name (.demand false) rest
      | ':' :: '+' :: rest => use name (.instead true) rest
      | '+' :: rest => use name (.instead false) rest
      | '%' :: '%' :: rest => useIn false name (.cutEnd true) rest
      | '%' :: rest => useIn false name (.cutEnd false) rest
      | '#' :: '#' :: rest => useIn false name (.cutStart true) rest
      | '#' :: rest => useIn false name (.cutStart false) rest
      | _ => none

/-- Redirections after a command. -/
def readRedirects : Nat → List Char → Option (List Redirect × List Char)
  | 0, _ => none
  | n + 1, cs =>
    match readMark (skipBlank cs) with
    | none => some ([], cs)
    | some (stream, kind, rest) => do
      let (target, rest) ← readWord n (skipBlank rest)
      if target.isEmpty then none
      else
        let (others, rest) ← readRedirects n rest
        pure (.to stream kind target :: others, rest)

/-- The settings, words and redirections of a simple command. -/
def readSimple : Nat → List Char →
    Option (List (String × Word) × List Word × List Redirect × List Char)
  | 0, _ => none
  | n + 1, cs =>
    let cs := skipNote cs
    match readMark cs with
    | some (stream, kind, rest) => do
      let (target, rest) ← readWord n (skipBlank rest)
      if target.isEmpty then none
      else
        let (settings, words, redirects, rest) ← readSimple n rest
        pure (settings, words, .to stream kind target :: redirects, rest)
    | none => do
      let (word, rest) ← readWord n cs
      if word.isEmpty then pure ([], [], [], cs)
      else
        match settingOf? word with
        | some setting =>
          let (settings, words, redirects, rest) ← readSimple n rest
          pure (setting :: settings, words, redirects, rest)
        | none =>
          let (words, redirects, rest) ← readArguments n rest
          pure ([], word :: words, redirects, rest)

/-- The words of a simple command after the first, with redirections among them. -/
def readArguments : Nat → List Char → Option (List Word × List Redirect × List Char)
  | 0, _ => none
  | n + 1, cs =>
    let cs := skipNote cs
    match readMark cs with
    | some (stream, kind, rest) => do
      let (target, rest) ← readWord n (skipBlank rest)
      if target.isEmpty then none
      else
        let (words, redirects, rest) ← readArguments n rest
        pure (words, .to stream kind target :: redirects, rest)
    | none => do
      let (word, rest) ← readWord n cs
      if word.isEmpty then pure ([], [], cs)
      else
        let (words, redirects, rest) ← readArguments n rest
        pure (word :: words, redirects, rest)

/-- Words up to the end of a line. -/
def readWords : Nat → List Char → Option (List Word × List Char)
  | 0, _ => none
  | n + 1, cs => do
    let cs := skipNote cs
    let (word, rest) ← readWord n cs
    if word.isEmpty then pure ([], cs)
    else
      let (words, rest) ← readWords n rest
      pure (word :: words, rest)

/-- The branches of a condition after its first word. -/
def readBranches : Nat → List Char →
    Option (List (List Command × List Command) × List Command × List Char)
  | 0, _ => none
  | n + 1, cs => do
    let (test, cs) ← readList n cs
    let cs ← dropWord "then" cs
    let (body, cs) ← readList n cs
    match dropWord "elif" cs with
    | some cs =>
      let (branches, otherwise, rest) ← readBranches n cs
      pure ((test, body) :: branches, otherwise, rest)
    | none =>
      match dropWord "else" cs with
      | some cs =>
        let (otherwise, cs) ← readList n cs
        let rest ← dropWord "fi" cs
        pure ([(test, body)], otherwise, rest)
      | none =>
        let rest ← dropWord "fi" cs
        pure ([(test, body)], [], rest)

/-- The patterns of a branch up to its bracket. -/
def readPatterns : Nat → List Char → Option (List Word × List Char)
  | 0, _ => none
  | n + 1, cs => do
    let (word, cs) ← readWord n (skipBlank cs)
    match skipBlank cs with
    | '|' :: cs =>
      let (words, rest) ← readPatterns n cs
      pure (word :: words, rest)
    | ')' :: rest => pure ([word], rest)
    | _ => none

/-- The branches of a choice up to its last word. -/
def readChoices : Nat → List Char → Option (List (List Word × List Command) × List Char)
  | 0, _ => none
  | n + 1, cs =>
    match dropWord "esac" cs with
    | some rest => some ([], rest)
    | none => do
      let cs := skipBreaks cs.length cs
      let (patterns, cs) ← readPatterns n ((dropLead ['('] cs).getD cs)
      let (body, cs) ← readList n cs
      let cs := skipBreaks cs.length cs
      let (choices, rest) ← readChoices n ((dropLead [';', ';'] cs).getD cs)
      pure ((patterns, body) :: choices, rest)

/-- A loop body between its words. -/
def readBody : Nat → List Char → Option (List Command × List Char)
  | 0, _ => none
  | n + 1, cs => do
    let cs ← dropWord "do" cs
    let (body, cs) ← readList n cs
    let rest ← dropWord "done" cs
    pure (body, rest)

/-- One command without pipes. -/
def readCommand : Nat → List Char → Option (Command × List Char)
  | 0, _ => none
  | n + 1, cs => do
    let cs := skipNote cs
    match cs with
    | '(' :: cs =>
      let (body, cs) ← readList n cs
      let (redirects, rest) ← readRedirects n (← dropLead [')'] cs)
      pure (.group true body redirects, rest)
    | _ =>
      let word := rawWord cs
      let after := cs.drop word.length
      if word = "\x7b" then
        let (body, cs) ← readList n after
        let (redirects, rest) ← readRedirects n (← dropWord "\x7d" cs)
        pure (.group false body redirects, rest)
      else if word = "if" then
        let (branches, otherwise, cs) ← readBranches n after
        let (redirects, rest) ← readRedirects n cs
        pure (.cond branches otherwise redirects, rest)
      else if word = "while" ∨ word = "until" then
        let (test, cs) ← readList n after
        let (body, cs) ← readBody n cs
        let (redirects, rest) ← readRedirects n cs
        pure (.loop (word = "while") test body redirects, rest)
      else if word = "for" then
        let cs := skipBlank after
        let name := rawWord cs
        let cs := skipBreaks cs.length (cs.drop name.length)
        match dropWord "in" cs with
        | some cs =>
          let (words, cs) ← readWords n cs
          let cs := (dropLead [';'] (skipBlank cs)).getD cs
          let (body, cs) ← readBody n cs
          let (redirects, rest) ← readRedirects n cs
          pure (.each name (some words) body redirects, rest)
        | none =>
          let cs := (dropLead [';'] (skipBlank cs)).getD cs
          let (body, cs) ← readBody n cs
          let (redirects, rest) ← readRedirects n cs
          pure (.each name none body redirects, rest)
      else if word = "case" then
        let (subject, cs) ← readWord n (skipBlank after)
        let cs ← dropWord "in" cs
        let (choices, cs) ← readChoices n cs
        let (redirects, rest) ← readRedirects n cs
        pure (.choose subject choices redirects, rest)
      else
        match skipBlank after with
        | '(' :: ')' :: rest =>
          if isName word.toList ∧ word ≠ "" then
            let (body, rest) ← readCommand n (skipBreaks rest.length rest)
            pure (.define word body, rest)
          else none
        | _ =>
          let (settings, words, redirects, rest) ← readSimple n cs
          if settings.isEmpty && words.isEmpty && redirects.isEmpty then none
          else pure (.simple settings words redirects, rest)

/-- Commands joined by pipes. -/
def readPipe : Nat → List Char → Option (List Command × List Char)
  | 0, _ => none
  | n + 1, cs => do
    let (first, cs) ← readCommand n cs
    match skipBlank cs with
    | '|' :: '|' :: _ => pure ([first], cs)
    | '|' :: rest =>
      let (others, rest) ← readPipe n (skipBreaks rest.length rest)
      pure (first :: others, rest)
    | _ => pure ([first], cs)

/-- A pipe, or the opposite of its answer. -/
def readAnswer : Nat → List Char → Option (Command × List Char)
  | 0, _ => none
  | n + 1, cs => do
    let cs := skipNote cs
    let negated : Bool := rawWord cs = "!"
    let (parts, rest) ← readPipe n (if negated then cs.drop 1 else cs)
    match parts, negated with
    | [one], false => pure (one, rest)
    | _, _ => pure (.pipe negated parts, rest)

/-- Pipes of which each hangs on the answer of those before it. -/
def readChain : Nat → Command → List Char → Option (Command × List Char)
  | 0, _, _ => none
  | n + 1, first, cs =>
    match skipBlank cs with
    | '&' :: '&' :: rest => do
      let (second, rest) ← readAnswer n (skipBreaks rest.length rest)
      readChain n (.chain true first second) rest
    | '|' :: '|' :: rest => do
      let (second, rest) ← readAnswer n (skipBreaks rest.length rest)
      readChain n (.chain false first second) rest
    | _ => some (first, cs)

/-- Commands up to where a list ends. -/
def readList : Nat → List Char → Option (List Command × List Char)
  | 0, _ => none
  | n + 1, cs =>
    let cs := skipBreaks cs.length cs
    if endsList cs then some ([], cs)
    else do
      let (first, cs) ← readAnswer n cs
      let (command, cs) ← readChain n first cs
      let cs := skipNote cs
      match cs with
      | ';' :: ';' :: _ => pure ([command], cs)
      | ';' :: rest =>
        let (others, rest) ← readList n rest
        pure (command :: others, rest)
      | '\n' :: rest =>
        let (others, rest) ← readList n rest
        pure (command :: others, rest)
      | '&' :: rest =>
        let (others, rest) ← readList n rest
        pure (command :: others, rest)
      | _ => if endsList cs then pure ([command], cs) else none

end

/-- The commands of a whole script. -/
def parse (script : String) : Option (List Command) :=
  let cs := inlayAll script.toList
  match readList (8 * cs.length + 16) cs with
  | some (commands, []) => some commands
  | _ => none

end StoryBuild.Shell
