import StoryBuild.Text.Lowercase
import StoryBuild.Text.Digit
import StoryBuild.Text.Blank

namespace StoryBuild

/-- Why a text is no duration. -/
inductive DurationError where
  | empty
  | noUnit (text : String)
  | noNumber
  | tooLarge (digits : String)
  | unknownUnit (unit : String)
  deriving DecidableEq

/-- The message for a text that is no duration. -/
def DurationError.message : DurationError → String
  | empty => "empty duration string"
  | noUnit text => s!"duration '{text}' is missing a unit suffix"
  | noNumber => "invalid duration number '': cannot parse integer from empty string"
  | tooLarge digits =>
    s!"invalid duration number '{digits}': number too large to fit in target type"
  | unknownUnit unit => s!"unsupported duration unit '{unit}'; expected ms, s, m, or h"

/-- The milliseconds in one unit. -/
def unitMillis : String → Option Nat
  | "ms" => some 1
  | "s" => some 1000
  | "m" => some 60000
  | "h" => some 3600000
  | _ => none

/-- Reads a duration such as `250ms` or `2m`, in milliseconds. -/
def readDuration (s : String) : Except DurationError Nat :=
  let cs := trim s.toList
  let digits := cs.takeWhile Char.isDigit
  let ending := cs.dropWhile Char.isDigit
  if cs = [] then .error .empty
  else if ending = [] then .error (.noUnit (String.ofList cs))
  else
    match readDecimal digits with
    | none => .error .noNumber
    | some n =>
      if Nat.pow 2 64 ≤ n then .error (.tooLarge (String.ofList digits))
      else
        let unit := lowerCase (String.ofList (trim ending))
        match unitMillis unit with
        | some millis => .ok (n * millis)
        | none => .error (.unknownUnit unit)

/-- The seconds and the remaining milliseconds of a duration as a decimal text without trailing
zeros, with the largest of the units `s`, `ms` and `ns` that leaves a whole part. -/
def durationText (millis : Nat) : String :=
  let decimals (n width : Nat) : String :=
    let digits := (Nat.toDigits 10 n).reverse
    let full := (digits ++ List.replicate (width - digits.length) '0').reverse
    String.ofList (full.reverse.dropWhile (· = '0')).reverse
  if millis = 0 then "0ns"
  else if millis < 1000 then s!"{millis}ms"
  else if millis % 1000 = 0 then s!"{millis / 1000}s"
  else s!"{millis / 1000}.{decimals (millis % 1000) 3}s"

end StoryBuild
