import StoryBuild.Toml.Quotes
import StoryBuild.Toml.Scalar
import StoryBuild.Toml.Table

namespace StoryBuild.Toml

/-- Drops the blanks in front on a line. -/
def skipBlanks (cs : List Char) : List Char :=
  cs.dropWhile isLineBlank

/-- What follows a newline. -/
def readNewline : List Char → Option (List Char)
  | '\n' :: cs => some cs
  | '\r' :: '\n' :: cs => some cs
  | _ => none

/-- Drops a comment in front. -/
def skipComment : List Char → List Char
  | '#' :: cs => cs.dropWhile fun c => !isControl c
  | cs => cs

/-- What follows the end of a line, on which only a comment may be left. -/
def readLineEnd (cs : List Char) : Option (List Char) :=
  match skipComment (skipBlanks cs) with
  | [] => some []
  | rest => readNewline rest

/-- Drops blanks, comments and newlines. -/
def skipLines : Nat → List Char → List Char
  | 0, cs => cs
  | steps + 1, cs =>
    let cs := skipComment (skipBlanks cs)
    match readNewline cs with
    | some rest => skipLines steps rest
    | none => cs

/-- The characters of a key without quotes. -/
def isKeyChar (c : Char) : Bool :=
  c.isAlphanum || c = '_' || c = '-'

/-- One part of a key, and what follows. -/
def readKeyPart : List Char → Option (String × List Char)
  | '\x22' :: cs => (readPlain cs).map fun r => (String.ofList r.1, r.2)
  | '\x27' :: cs => (readLiteral cs).map fun r => (String.ofList r.1, r.2)
  | cs =>
    match cs.takeWhile isKeyChar with
    | [] => none
    | key => some (String.ofList key, cs.dropWhile isKeyChar)

/-- A key with its dots, and what follows it and the blanks after it. -/
def readKey : Nat → List Char → Option (List String × List Char)
  | 0, _ => none
  | steps + 1, cs => do
    let (part, cs) ← readKeyPart (skipBlanks cs)
    match skipBlanks cs with
    | '.' :: rest =>
      let (parts, rest) ← readKey steps rest
      pure (part :: parts, rest)
    | rest => pure ([part], rest)

/-- The characters of a scalar without quotes. -/
def isAtomChar (c : Char) : Bool :=
  c.isAlphanum || c = '_' || c = '-' || c = '+' || c = '.' || c = ':'

/-- A scalar without quotes, and what follows. A date and a time may have a space between them. -/
def readAtom (cs : List Char) : Option (Toml × List Char) := do
  let atom := cs.takeWhile isAtomChar
  let rest := cs.dropWhile isAtomChar
  let next := (rest.drop 1).takeWhile isAtomChar
  if readDate atom = some [] ∧ rest.head? = some ' ' ∧ next.head?.any Char.isDigit then
    let value ← readScalar (atom ++ ' ' :: next)
    pure (value, (rest.drop 1).dropWhile isAtomChar)
  else
    let value ← readScalar atom
    pure (value, rest)

mutual

/-- A value, and what follows it. The steps allowed are at least the characters left. -/
def readValue : Nat → Nat → List Char → Option (Toml × List Char)
  | 0, _, _ => none
  | _, _, [] => none
  | steps + 1, depth, c :: cs =>
    if c = '\x22' ∨ c = '\x27' then
      (readQuoted (c :: cs)).map fun r => (.text (String.ofList r.1), r.2)
    else if c = '[' then
      if depth = 0 then none
      else (readItems steps (depth - 1) cs).map fun r => (.array false r.1, r.2)
    else if c = '\x7b' then
      if depth = 0 then none
      else
        match skipBlanks cs with
        | '\x7d' :: rest => some (.table .closed [], rest)
        | _ => (readFields steps (depth - 1) ⟨.closed, []⟩ cs).map fun r => (r.1.toToml, r.2)
    else readAtom (c :: cs)

/-- The items of a list up to its end. A comma may follow the last one. -/
def readItems : Nat → Nat → List Char → Option (List Toml × List Char)
  | 0, _, _ => none
  | steps + 1, depth, cs =>
    match skipLines (steps + 1) cs with
    | ']' :: rest => some ([], rest)
    | cs => do
      let (item, cs) ← readValue steps depth cs
      match skipLines (steps + 1) cs with
      | ',' :: cs =>
        let (items, rest) ← readItems steps depth cs
        pure (item :: items, rest)
      | ']' :: rest => pure ([item], rest)
      | _ => none

/-- The settings of a table between braces up to its end. -/
def readFields : Nat → Nat → TomlTable → List Char → Option (TomlTable × List Char)
  | 0, _, _, _ => none
  | steps + 1, depth, t, cs => do
    let (key, cs) ← readKey (steps + 1) cs
    let cs ← dropLead ['='] cs
    let (value, cs) ← readValue steps depth (skipBlanks cs)
    let t ← t.insertHere key value
    match skipBlanks cs with
    | ',' :: cs => readFields steps depth t cs
    | '\x7d' :: rest => pure (t, rest)
    | _ => none

end

/-- How deep values are nested at most. -/
def depthBound : Nat := 80

/-- What has been read of a document: the table, and the header that applies. -/
structure Draft where
  table : TomlTable := ⟨.headed, []⟩
  header : List String := []

/-- A header of a table or of an item after its opening bracket, and what follows its line. -/
def readHeader (steps : Nat) (d : Draft) (cs : List Char) : Option (Draft × List Char) := do
  match cs with
  | '[' :: cs =>
    let (header, cs) ← readKey steps cs
    let rest ← readLineEnd (← dropLead [']', ']'] cs)
    pure (⟨← d.table.openItem header, header⟩, rest)
  | cs =>
    let (header, cs) ← readKey steps cs
    let rest ← readLineEnd (← dropLead [']'] cs)
    pure (⟨← d.table.openTable header, header⟩, rest)

/-- A setting, and what follows its line. -/
def readSetting (steps : Nat) (d : Draft) (cs : List Char) : Option (Draft × List Char) := do
  let (key, cs) ← readKey steps cs
  let cs ← dropLead ['='] cs
  let (value, cs) ← readValue steps depthBound (skipBlanks cs)
  let rest ← readLineEnd cs
  pure ({ d with table := ← d.table.insert d.header key value }, rest)

/-- Line after line. -/
def readDocument : Nat → Draft → List Char → Option TomlTable
  | 0, _, _ => none
  | steps + 1, d, cs =>
    match skipLines (steps + 1) cs with
    | [] => some d.table
    | '[' :: cs => do
      let (d, rest) ← readHeader (steps + 1) d cs
      readDocument steps d rest
    | cs => do
      let (d, rest) ← readSetting (steps + 1) d cs
      readDocument steps d rest

/-- Drops a byte order mark in front. -/
def dropMark : List Char → List Char
  | c :: cs => if c.toNat = 0xFEFF then cs else c :: cs
  | [] => []

/-- The table that a whole text spells. -/
def parse (s : String) : Option TomlTable :=
  let cs := dropMark s.toList
  readDocument (cs.length + 1) {} cs

end StoryBuild.Toml
