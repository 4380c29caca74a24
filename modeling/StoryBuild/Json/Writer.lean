import StoryBuild.Json.Basic

namespace StoryBuild.Json

/-- The two lower-case hexadecimal digits of a small number. -/
def hexPair (n : Nat) : List Char :=
  [Nat.digitChar (n / 16), Nat.digitChar (n % 16)]

/-- One character between quotes. -/
def escapeChar (c : Char) : List Char :=
  if c = '\x22' then ['\\', '\x22']
  else if c = '\\' then ['\\', '\\']
  else if c = '\n' then ['\\', 'n']
  else if c = '\r' then ['\\', 'r']
  else if c = '\t' then ['\\', 't']
  else if c = '\x08' then ['\\', 'b']
  else if c = '\x0c' then ['\\', 'f']
  else if c.toNat < 32 then ['\\', 'u', '0', '0'] ++ hexPair c.toNat
  else [c]

/-- A text between quotes. -/
def quote (s : String) : List Char :=
  '\x22' :: s.toList.flatMap escapeChar ++ ['\x22']

/-- The spaces in front of a line at some depth. -/
def indent (depth : Nat) : List Char :=
  '\n' :: List.replicate (2 * depth) ' '

mutual

/-- The text of a value at some depth. -/
def write (depth : Nat) : Json → List Char
  | null => "null".toList
  | bool b => (if b then "true" else "false").toList
  | number literal => literal
  | text s => quote s
  | brokenText => quote ""
  | array [] => ['[', ']']
  | array (item :: items) =>
    '[' :: indent (depth + 1) ++ write (depth + 1) item ++ writeItems (depth + 1) items ++
      indent depth ++ [']']
  | object [] => ['\x7b', '\x7d']
  | object ((key, value) :: fields) =>
    '\x7b' :: indent (depth + 1) ++ quote key ++ [':', ' '] ++ write (depth + 1) value ++
      writeFields (depth + 1) fields ++ indent depth ++ ['\x7d']

/-- The items after the first, each after a comma and on a line of its own. -/
def writeItems (depth : Nat) : List Json → List Char
  | [] => []
  | item :: items => ',' :: indent depth ++ write depth item ++ writeItems depth items

/-- The fields after the first. -/
def writeFields (depth : Nat) : List (String × Json) → List Char
  | [] => []
  | (key, value) :: fields =>
    ',' :: indent depth ++ quote key ++ [':', ' '] ++ write depth value ++
      writeFields depth fields

end

/-- The text of a value. -/
def render (j : Json) : String :=
  String.ofList (write 0 j)

end StoryBuild.Json
