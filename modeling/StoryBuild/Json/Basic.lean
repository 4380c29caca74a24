namespace StoryBuild

/-- A JSON value. Numbers are kept as they are written, and fields in the order of the text,
repeated ones too. A text whose escapes name half of a surrogate pair is broken. -/
inductive Json where
  | null
  | bool (b : Bool)
  | number (literal : List Char)
  | text (s : String)
  | brokenText
  | array (items : List Json)
  | object (fields : List (String × Json))
  deriving Inhabited

/-- The number with a given value. -/
def Json.nat (n : Nat) : Json :=
  .number (Nat.toDigits 10 n)

end StoryBuild
