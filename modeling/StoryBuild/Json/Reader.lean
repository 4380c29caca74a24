import StoryBuild.Json.Basic

namespace StoryBuild.Json

/-- The blanks between the parts of a JSON text. -/
def isSpace (c : Char) : Bool :=
  c = ' ' || c = '\n' || c = '\r' || c = '\t'

/-- Drops blanks in front. -/
def skip (cs : List Char) : List Char :=
  cs.dropWhile isSpace

/-- The value of a hexadecimal digit. -/
def hexValue? (c : Char) : Option Nat :=
  if '0' ≤ c ∧ c ≤ '9' then some (c.toNat - 48)
  else if 'a' ≤ c ∧ c ≤ 'f' then some (c.toNat - 87)
  else if 'A' ≤ c ∧ c ≤ 'F' then some (c.toNat - 55)
  else none

/-- The number of four hexadecimal digits. -/
def hexFour? (a b c d : Char) : Option Nat := do
  pure (((← hexValue? a) * 16 + (← hexValue? b)) * 256 + (← hexValue? c) * 16 + (← hexValue? d))

/-- The character of a short escape. -/
def shortEscape? : Char → Option Char
  | '\x22' => some '\x22'
  | '\\' => some '\\'
  | '/' => some '/'
  | 'b' => some '\x08'
  | 'f' => some '\x0c'
  | 'n' => some '\n'
  | 'r' => some '\r'
  | 't' => some '\t'
  | _ => none

/-- Whether a code unit is the first half of a surrogate pair. -/
def isHighHalf (n : Nat) : Bool :=
  0xD800 ≤ n && n ≤ 0xDBFF

/-- Whether a code unit is the second half of a surrogate pair. -/
def isLowHalf (n : Nat) : Bool :=
  0xDC00 ≤ n && n ≤ 0xDFFF

/-- The code units and characters of a text up to its closing quote, and what follows. A number
stands for an escaped code unit. -/
def readUnits : List Char → Option (List (Char ⊕ Nat) × List Char)
  | [] => none
  | '\x22' :: cs => some ([], cs)
  | '\\' :: 'u' :: a :: b :: c :: d :: cs => do
    let n ← hexFour? a b c d
    let (units, rest) ← readUnits cs
    pure (.inr n :: units, rest)
  | '\\' :: e :: cs => do
    let c ← shortEscape? e
    let (units, rest) ← readUnits cs
    pure (.inl c :: units, rest)
  | c :: cs =>
    if c.toNat < 32 ∨ c = '\\' then none
    else do
      let (units, rest) ← readUnits cs
      pure (.inl c :: units, rest)

/-- Joins halves of surrogate pairs to characters; a half that stands alone is refused. -/
def joinUnits : List (Char ⊕ Nat) → Option (List Char)
  | [] => some []
  | .inl c :: units => (joinUnits units).map (c :: ·)
  | .inr high :: .inr low :: units =>
    if isHighHalf high && isLowHalf low then
      (joinUnits units).map (Char.ofNat (0x10000 + (high - 0xD800) * 0x400 + (low - 0xDC00)) :: ·)
    else if isHighHalf high || isLowHalf high then none
    else (joinUnits (.inr low :: units)).map (Char.ofNat high :: ·)
  | .inr n :: units =>
    if isHighHalf n || isLowHalf n then none else (joinUnits units).map (Char.ofNat n :: ·)

/-- A text after its opening quote. -/
def readText (cs : List Char) : Option (Option String × List Char) := do
  let (units, rest) ← readUnits cs
  pure ((joinUnits units).map String.ofList, rest)

/-- Digits, of which there is at least one. -/
def readDigits (cs : List Char) : Option (List Char × List Char) :=
  match cs.takeWhile Char.isDigit with
  | [] => none
  | digits => some (digits, cs.dropWhile Char.isDigit)

/-- The digits before the point: a zero, or digits that do not start with one. -/
def readWhole (cs : List Char) : Option (List Char × List Char) := do
  let (digits, rest) ← readDigits cs
  match digits with
  | ['0'] => pure (digits, rest)
  | '0' :: _ => none
  | _ => pure (digits, rest)

/-- A point with digits, if there is one. -/
def readFraction : List Char → Option (List Char × List Char)
  | '.' :: cs => (readDigits cs).map fun r => ('.' :: r.1, r.2)
  | cs => some ([], cs)

/-- An exponent, if there is one. -/
def readExponent : List Char → Option (List Char × List Char)
  | [] => some ([], [])
  | e :: cs =>
    if e = 'e' ∨ e = 'E' then
      match cs with
      | '+' :: cs => (readDigits cs).map fun r => (e :: '+' :: r.1, r.2)
      | '-' :: cs => (readDigits cs).map fun r => (e :: '-' :: r.1, r.2)
      | cs => (readDigits cs).map fun r => (e :: r.1, r.2)
    else some ([], e :: cs)

/-- A number without its sign. -/
def readUnsigned (cs : List Char) : Option (List Char × List Char) := do
  let (whole, cs) ← readWhole cs
  let (fraction, cs) ← readFraction cs
  let (exponent, cs) ← readExponent cs
  pure (whole ++ fraction ++ exponent, cs)

/-- A word of the format. -/
def readWord (word : List Char) (j : Json) (cs : List Char) : Option (Json × List Char) :=
  if word.isPrefixOf cs then some (j, cs.drop word.length) else none

mutual

/-- A value, and what follows it. The steps allowed are at least the characters left. -/
def readValue : Nat → List Char → Option (Json × List Char)
  | 0, _ => none
  | steps + 1, cs =>
    match skip cs with
    | [] => none
    | '\x22' :: cs => (readText cs).map fun r => ((r.1.map Json.text).getD .brokenText, r.2)
    | '[' :: cs =>
      match skip cs with
      | ']' :: rest => some (.array [], rest)
      | cs => (readItems steps cs).map fun r => (.array r.1, r.2)
    | '\x7b' :: cs =>
      match skip cs with
      | '\x7d' :: rest => some (.object [], rest)
      | cs => (readFields steps cs).map fun r => (.object r.1, r.2)
    | '-' :: cs => (readUnsigned cs).map fun r => (.number ('-' :: r.1), r.2)
    | 'n' :: cs => readWord "ull".toList .null cs
    | 't' :: cs => readWord "rue".toList (.bool true) cs
    | 'f' :: cs => readWord "alse".toList (.bool false) cs
    | cs => (readUnsigned cs).map fun r => (.number r.1, r.2)

/-- Items up to the end of their list. -/
def readItems : Nat → List Char → Option (List Json × List Char)
  | 0, _ => none
  | steps + 1, cs => do
    let (item, cs) ← readValue steps cs
    match skip cs with
    | ',' :: cs =>
      let (items, rest) ← readItems steps cs
      pure (item :: items, rest)
    | ']' :: rest => pure ([item], rest)
    | _ => none

/-- Fields up to the end of their record. The name of a field is always used. -/
def readFields : Nat → List Char → Option (List (String × Json) × List Char)
  | 0, _ => none
  | steps + 1, cs => do
    match skip cs with
    | '\x22' :: cs =>
      let (key, cs) ← readText cs
      let key ← key
      match skip cs with
      | ':' :: cs =>
        let (value, cs) ← readValue steps cs
        match skip cs with
        | ',' :: cs =>
          let (fields, rest) ← readFields steps cs
          pure ((key, value) :: fields, rest)
        | '\x7d' :: rest => pure ([(key, value)], rest)
        | _ => none
      | _ => none
    | _ => none

end

/-- The value that a whole text spells. -/
def parse (s : String) : Option Json :=
  match readValue (s.toList.length + 1) s.toList with
  | some (j, rest) => if skip rest = [] then some j else none
  | none => none

end StoryBuild.Json
