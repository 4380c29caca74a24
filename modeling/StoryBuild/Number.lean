import StoryBuild.Rounding

namespace StoryBuild

/-- A number of 64 bits: a size with a sign, an infinity, or no number at all. -/
inductive Number where
  | finite (negative : Bool) (size : Binary)
  | infinite (negative : Bool)
  | nan
  deriving DecidableEq

/-- The number `digits * 10 ^ exponent`, rounded to the format. -/
def binaryOfDecimal (digits : Nat) (exponent : Int) : Binary :=
  if 0 ≤ exponent then binary64.nearest (digits * Nat.pow 10 exponent.toNat) 1
  else binary64.nearest digits (Nat.pow 10 (-exponent).toNat)

/-- The exponent of the least power of ten above a fraction. -/
def magnitudeOf (num den : Nat) : Int :=
  if den ≤ num then (Nat.toDigits 10 (num / den)).length
  else
    let width : Int := (Nat.toDigits 10 (den / num)).length
    if den = num * Nat.pow 10 (width - 1).toNat then 2 - width else 1 - width

/-- The decimal of a grid that is nearest to a fraction among those that read back as `b`. The
points of the grid lie `10 ^ exponent` apart. -/
def readsBackOn? (b : Binary) (exponent : Int) : Option Nat :=
  let (num, den) := b.fraction
  let (num, den) :=
    if 0 ≤ exponent then (num, den * Nat.pow 10 exponent.toNat)
    else (num * Nat.pow 10 (-exponent).toNat, den)
  let low := num / den
  let near := roundDiv num den
  let far := if near = low then low + 1 else low
  [near, far].find? fun digits => binaryOfDecimal digits exponent == b

/-- The fewest digits that read back, with their exponent. The widths still to be tried are
counted down; seventeen digits always read back. -/
def shortestFrom (b : Binary) (magnitude : Int) : Nat → Nat × Int
  | 0 => (0, 0)
  | left + 1 =>
    let width : Int := 17 - left
    match readsBackOn? b (magnitude - width) with
    | some digits => (digits, magnitude - width)
    | none => shortestFrom b magnitude left

/-- The fewest digits that read back as a number, with their exponent. -/
def shortest (b : Binary) : Nat × Int :=
  if b.mantissa = 0 then (0, 0)
  else
    let (num, den) := b.fraction
    shortestFrom b (magnitudeOf num den) 17

/-- The text of `digits * 10 ^ exponent` without an exponent. -/
def positional (digits : Nat) (exponent : Int) : String :=
  let written := Nat.toDigits 10 digits
  if 0 ≤ exponent then
    String.ofList (written ++ List.replicate exponent.toNat '0')
  else
    let places := (-exponent).toNat
    let padded := List.replicate (places + 1 - written.length) '0' ++ written
    let whole := padded.take (padded.length - places)
    let rest := ((padded.drop (padded.length - places)).reverse.dropWhile (· = '0')).reverse
    String.ofList (if rest = [] then whole else whole ++ '.' :: rest)

namespace Number

/-- The text of a number: the fewest digits that read back as the same number, and never an
exponent. -/
def text : Number → String
  | nan => "NaN"
  | infinite negative => if negative then "-inf" else "inf"
  | finite negative size =>
    let (digits, exponent) := shortest size
    (if negative then "-" else "") ++ positional digits exponent

/-- The bit pattern of a number. -/
def bits : Number → Nat
  | nan => 0x7FF8000000000000
  | infinite negative => (if negative then Nat.pow 2 63 else 0) + 0x7FF0000000000000
  | finite negative size => (if negative then Nat.pow 2 63 else 0) + binary64.bits size

/-- Whether a number is above zero and not above one. -/
def isShare : Number → Bool
  | finite false size => size.mantissa != 0 && !Binary.below ⟨1, 0⟩ size
  | _ => false

/-- The number nearest to a whole number. -/
def ofInt (n : Int) : Number :=
  finite (n < 0) (binary64.nearest n.natAbs 1)

end Number

end StoryBuild
