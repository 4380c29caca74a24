import StoryBuild.Toml.Basic
import StoryBuild.Json.Reader
import StoryBuild.Text.Blank
import StoryBuild.Text.Digit

namespace StoryBuild.Toml

/-- Digits of a base. Single underscores may stand between them. -/
def digitsOf? (base : Nat) (cs : List Char) : Option (List Nat) :=
  let pieces := cutAt '_' cs
  if pieces.any (·.isEmpty) then none
  else pieces.flatten.mapM fun c => (Json.hexValue? c).filter (· < base)

/-- The value of digits. -/
def valueOf (base : Nat) (digits : List Nat) : Nat :=
  digits.foldl (fun n d => base * n + d) 0

/-- Digits of a whole number in base ten, which do not start with a needless zero. -/
def wholeDigits? (cs : List Char) : Option (List Nat) :=
  match digitsOf? 10 cs with
  | some (0 :: _ :: _) => none
  | digits => digits

/-- Takes a sign off; says whether it was a minus. -/
def splitSign : List Char → Bool × List Char
  | '-' :: cs => (true, cs)
  | '+' :: cs => (false, cs)
  | cs => (false, cs)

/-- A value with a sign. -/
def signed (negative : Bool) (n : Nat) : Int :=
  if negative then -n else n

/-- The whole numbers that can be held. -/
def integerFits (n : Int) : Bool :=
  -(Nat.pow 2 127 : Int) ≤ n && n < (Nat.pow 2 128 : Int)

/-- A whole number in base ten, or in another base after a mark. -/
def readInteger (cs : List Char) : Option Int :=
  match cs with
  | '0' :: 'x' :: ds => (digitsOf? 16 ds).map fun ds => valueOf 16 ds
  | '0' :: 'o' :: ds => (digitsOf? 8 ds).map fun ds => valueOf 8 ds
  | '0' :: 'b' :: ds => (digitsOf? 2 ds).map fun ds => valueOf 2 ds
  | _ =>
    let (negative, ds) := splitSign cs
    (wholeDigits? ds).map fun ds => signed negative (valueOf 10 ds)

/-- The number `digits * 10 ^ exponent`, unless it is too large. Exponents far out of range are
settled without computing the number. -/
def numberOf? (negative : Bool) (digits : Nat) (exponent : Int) : Option Number :=
  let top := exponent + (Nat.toDigits 10 digits).length
  if digits = 0 ∨ top < -400 then some (.finite negative ⟨0, -1074⟩)
  else if 400 < top then none
  else
    let size := binaryOfDecimal digits exponent
    if binary64.overflows size then none else some (.finite negative size)

/-- An exponent with an optional sign. -/
def readPower (cs : List Char) : Option Int :=
  let (negative, ds) := splitSign cs
  (digitsOf? 10 ds).map fun ds => signed negative (valueOf 10 ds)

/-- A number with a point or an exponent, without its sign. -/
def readDecimalNumber (negative : Bool) (cs : List Char) : Option Number := do
  let mantissa := cs.takeWhile fun c => c ≠ 'e' ∧ c ≠ 'E'
  let power ← match cs.drop mantissa.length with
    | [] => some 0
    | _ :: ds => readPower ds
  let (places, digits) ← match cutAt '.' mantissa with
    | [whole] => (wholeDigits? whole).map fun ds => (0, ds)
    | [whole, rest] => do
      let front ← wholeDigits? whole
      let back ← digitsOf? 10 rest
      some (back.length, front ++ back)
    | _ => none
  numberOf? negative (valueOf 10 digits) (power - (places : Int))

/-- A number that is not whole. -/
def readFloat (cs : List Char) : Option Number :=
  let (negative, ds) := splitSign cs
  if ds = "inf".toList then some (.infinite negative)
  else if ds = "nan".toList then some .nan
  else readDecimalNumber negative ds

/-- The value of so many digits, and what follows. -/
def readFixed (width : Nat) (cs : List Char) : Option (Nat × List Char) := do
  let n ← readDecimal (cs.take width)
  if (cs.take width).length = width then some (n, cs.drop width) else none

/-- The days in a month. -/
def daysIn (year month : Nat) : Nat :=
  if month = 2 then
    if year % 4 = 0 ∧ (year % 100 ≠ 0 ∨ year % 400 = 0) then 29 else 28
  else if month = 4 ∨ month = 6 ∨ month = 9 ∨ month = 11 then 30
  else 31

/-- What follows a date. -/
def readDate (cs : List Char) : Option (List Char) := do
  let (year, cs) ← readFixed 4 cs
  let (month, cs) ← readFixed 2 (← dropLead ['-'] cs)
  let (day, cs) ← readFixed 2 (← dropLead ['-'] cs)
  if 1 ≤ month ∧ month ≤ 12 ∧ 1 ≤ day ∧ day ≤ daysIn year month then some cs else none

/-- What follows a fraction of a second, if there is one. -/
def readSubsecond : List Char → Option (List Char)
  | '.' :: cs => if (cs.takeWhile Char.isDigit) = [] then none else some (cs.dropWhile Char.isDigit)
  | cs => some cs

/-- What follows a time of day. A minute may have a leap second. -/
def readTime (cs : List Char) : Option (List Char) := do
  let (hour, cs) ← readFixed 2 cs
  let (minute, cs) ← readFixed 2 (← dropLead [':'] cs)
  let (second, cs) ← readFixed 2 (← dropLead [':'] cs)
  if hour < 24 ∧ minute < 60 ∧ second ≤ 60 then readSubsecond cs else none

/-- Whether a text is an offset from universal time, or nothing. -/
def isOffset : List Char → Bool
  | [] => true
  | ['Z'] => true
  | ['z'] => true
  | sign :: cs =>
    (sign = '+' || sign = '-') &&
      match readFixed 2 cs with
      | some (hour, ':' :: rest) =>
        match readFixed 2 rest with
        | some (minute, []) => hour < 24 && minute < 60
        | _ => false
      | _ => false

/-- Whether a text is a date, a time, or both with an offset. -/
def isMoment (cs : List Char) : Bool :=
  match readDate cs with
  | some [] => true
  | some (mark :: rest) =>
    (mark = 'T' || mark = 't' || mark = ' ') && (readTime rest).any isOffset
  | none => readTime cs == some []

/-- A scalar without quotes. -/
def readScalar (cs : List Char) : Option Toml :=
  if cs = "true".toList then some (.bool true)
  else if cs = "false".toList then some (.bool false)
  else if isMoment cs then some .moment
  else
    match readInteger cs with
    | some n => if integerFits n then some (.integer n) else none
    | none => (readFloat cs).map .float

end StoryBuild.Toml
