import StoryBuild.Toml.Basic
import StoryBuild.Json.Reader

namespace StoryBuild.Toml

/-- Control characters, which stand in no text and no comment. -/
def isControl (c : Char) : Bool :=
  (c.toNat < 32 && c ≠ '\t') || c.toNat = 127

/-- Blanks inside a line. -/
def isLineBlank (c : Char) : Bool :=
  c = ' ' || c = '\t'

/-- The character of a short escape. -/
def escaped? : Char → Option Char
  | '\x22' => some '\x22'
  | '\\' => some '\\'
  | 'b' => some '\x08'
  | 'f' => some '\x0c'
  | 'n' => some '\n'
  | 'r' => some '\r'
  | 't' => some '\t'
  | _ => none

/-- The character that hexadecimal digits name. -/
def charOf? (digits : List Char) : Option Char := do
  let values ← digits.mapM Json.hexValue?
  let n := values.foldl (fun n d => 16 * n + d) 0
  if n.isValidChar then some (Char.ofNat n) else none

/-- Puts a character in front of what was read after it. -/
def andThen (c : Char) (r : List Char × List Char) : List Char × List Char :=
  (c :: r.1, r.2)

/-- A text on one line up to its closing double quote, and what follows. -/
def readPlain : List Char → Option (List Char × List Char)
  | [] => none
  | '\x22' :: cs => some ([], cs)
  | '\\' :: 'u' :: a :: b :: c :: d :: cs => do
    let char ← charOf? [a, b, c, d]
    (readPlain cs).map (andThen char)
  | '\\' :: 'U' :: a :: b :: c :: d :: e :: f :: g :: h :: cs => do
    let char ← charOf? [a, b, c, d, e, f, g, h]
    (readPlain cs).map (andThen char)
  | '\\' :: e :: cs => do
    let char ← escaped? e
    (readPlain cs).map (andThen char)
  | c :: cs => if isControl c ∨ c = '\\' then none else (readPlain cs).map (andThen c)

/-- A text on one line up to its closing single quote, and what follows. -/
def readLiteral : List Char → Option (List Char × List Char)
  | [] => none
  | '\x27' :: cs => some ([], cs)
  | c :: cs => if isControl c then none else (readLiteral cs).map (andThen c)

/-- Closing triple quotes, with up to two more that still belong to the text. -/
def closing? (quote : Char) (cs : List Char) : Option (List Char × List Char) :=
  let run := ((cs.take 5).takeWhile (· = quote)).length
  if 3 ≤ run then some (List.replicate (run - 3) quote, cs.drop run) else none

/-- Whether a newline follows, after blanks. -/
def endsLine (cs : List Char) : Bool :=
  match cs.dropWhile isLineBlank with
  | '\n' :: _ => true
  | '\r' :: '\n' :: _ => true
  | _ => false

/-- A text over several lines up to its closing quotes, and what follows. After a backslash at the
end of a line everything blank is passed over. -/
def readLong : Bool → List Char → Option (List Char × List Char)
  | _, [] => none
  | true, '\r' :: '\n' :: cs => readLong true cs
  | false, '\r' :: '\n' :: cs => (readLong false cs).map (andThen '\n')
  | _, '\\' :: 'u' :: a :: b :: c :: d :: cs => do
    let char ← charOf? [a, b, c, d]
    (readLong false cs).map (andThen char)
  | _, '\\' :: 'U' :: a :: b :: c :: d :: e :: f :: g :: h :: cs => do
    let char ← charOf? [a, b, c, d, e, f, g, h]
    (readLong false cs).map (andThen char)
  | _, '\\' :: e :: cs =>
    match escaped? e with
    | some char => (readLong false cs).map (andThen char)
    | none => if endsLine (e :: cs) then readLong true (e :: cs) else none
  | skipping, c :: cs =>
    if skipping ∧ (isLineBlank c ∨ c = '\n') then readLong true cs
    else
      match closing? '\x22' (c :: cs) with
      | some found => some found
      | none =>
        if (isControl c ∧ c ≠ '\n') ∨ c = '\\' then none
        else (readLong false cs).map (andThen c)

/-- A text over several lines without escapes up to its closing quotes, and what follows. -/
def readLongLiteral : List Char → Option (List Char × List Char)
  | [] => none
  | '\r' :: '\n' :: cs => (readLongLiteral cs).map (andThen '\n')
  | c :: cs =>
    match closing? '\x27' (c :: cs) with
    | some found => some found
    | none =>
      if isControl c ∧ c ≠ '\n' then none else (readLongLiteral cs).map (andThen c)

/-- Drops a newline right after opening triple quotes. -/
def dropNewline : List Char → List Char
  | '\n' :: cs => cs
  | '\r' :: '\n' :: cs => cs
  | cs => cs

/-- A text with its opening quotes, and what follows. -/
def readQuoted : List Char → Option (List Char × List Char)
  | '\x22' :: '\x22' :: '\x22' :: cs => readLong false (dropNewline cs)
  | '\x22' :: cs => readPlain cs
  | '\x27' :: '\x27' :: '\x27' :: cs => readLongLiteral (dropNewline cs)
  | '\x27' :: cs => readLiteral cs
  | _ => none

end StoryBuild.Toml
