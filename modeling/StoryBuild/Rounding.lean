namespace StoryBuild

/-- A quotient rounded to a whole number, a half to the even neighbour. -/
def roundDiv (num den : Nat) : Nat :=
  let q := num / den
  let r := num % den
  if den < 2 * r ∨ (2 * r = den ∧ q % 2 = 1) then q + 1 else q

/-- A binary floating-point format: the bits of a mantissa, the exponent of the least bit of the
smallest numbers (negated), and the exponent of the least bit of the largest numbers. -/
structure BinaryFormat where
  precision : Nat
  lowest : Nat
  highest : Nat

/-- Numbers of 64 bits. -/
def binary64 : BinaryFormat := ⟨53, 1074, 971⟩

/-- Numbers of 32 bits. -/
def binary32 : BinaryFormat := ⟨24, 149, 104⟩

/-- The number `mantissa * 2 ^ exponent`. -/
structure Binary where
  mantissa : Nat
  exponent : Int
  deriving DecidableEq

/-- A number as a fraction. -/
def Binary.fraction (b : Binary) : Nat × Nat :=
  if 0 ≤ b.exponent then (b.mantissa * Nat.pow 2 b.exponent.toNat, 1)
  else (b.mantissa, Nat.pow 2 (-b.exponent).toNat)

namespace BinaryFormat

/-- The mantissa of a fraction at an exponent. -/
def scaled (num den : Nat) (e : Int) : Nat :=
  if 0 ≤ e then roundDiv num (den * Nat.pow 2 e.toNat)
  else roundDiv (num * Nat.pow 2 (-e).toNat) den

/-- The number of a format nearest to a fraction. -/
def nearest (f : BinaryFormat) (num den : Nat) : Binary :=
  let low : Int := -f.lowest
  let guess : Int := (num.log2 : Int) - den.log2 - f.precision
  let e := max low guess
  let e := if Nat.pow 2 f.precision ≤ scaled num den e then e + 1 else e
  let m := scaled num den e
  if m = Nat.pow 2 f.precision then ⟨m / 2, e + 1⟩ else ⟨m, e⟩

/-- Whether a number is too large for a format. -/
def overflows (f : BinaryFormat) (b : Binary) : Bool :=
  b.mantissa ≠ 0 && (f.highest : Int) < b.exponent

/-- The bit pattern of a number that was rounded to a format. -/
def bits (f : BinaryFormat) (b : Binary) : Nat :=
  if b.mantissa < Nat.pow 2 (f.precision - 1) then b.mantissa
  else
    let field := (b.exponent + f.lowest + 1).toNat
    field * Nat.pow 2 (f.precision - 1) + (b.mantissa - Nat.pow 2 (f.precision - 1))

/-- A sum rounded to a format. -/
def add (f : BinaryFormat) (a b : Binary) : Binary :=
  let (n, d) := a.fraction
  let (m, e) := b.fraction
  f.nearest (n * e + m * d) (d * e)

/-- A product rounded to a format. -/
def mul (f : BinaryFormat) (a b : Binary) : Binary :=
  let (n, d) := a.fraction
  let (m, e) := b.fraction
  f.nearest (n * m) (d * e)

/-- A quotient rounded to a format. -/
def div (f : BinaryFormat) (a b : Binary) : Binary :=
  let (n, d) := a.fraction
  let (m, e) := b.fraction
  f.nearest (n * e) (d * m)

end BinaryFormat

/-- Whether one number is below another. -/
def Binary.below (a b : Binary) : Bool :=
  let (n, d) := a.fraction
  let (m, e) := b.fraction
  n * e < m * d

/-- A duration in seconds, as a number of 64 bits: the whole seconds and the rest are rounded one
by one. -/
def secondsOf (millis : Nat) : Binary :=
  binary64.add (binary64.nearest (millis / 1000) 1)
    (binary64.nearest (millis % 1000 * 1000000) 1000000000)

/-- A number with one decimal. -/
def oneDecimal (b : Binary) : String :=
  let (n, d) := b.fraction
  let tenths := roundDiv (n * 10) d
  s!"{tenths / 10}.{tenths % 10}"

/-- A part of a duration, in nanoseconds. -/
def partOfDuration (share : Binary) (millis : Nat) : Nat :=
  let (n, d) := (binary64.mul share (secondsOf millis)).fraction
  roundDiv (n * 1000000000) d

end StoryBuild
