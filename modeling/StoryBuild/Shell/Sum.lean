import StoryBuild.Shell.Printing
import StoryBuild.Text.Blank

namespace StoryBuild.Shell

/-- A token of an expression. -/
inductive SumToken where
  | number (n : Int)
  | name (s : String)
  | sign (s : String)
  deriving DecidableEq

/-- The signs of two characters. -/
def longSigns : List (List Char) :=
  ["<=", ">=", "==", "!=", "&&", "||", "<<", ">>"].map String.toList

/-- The tokens of an expression. The steps allowed are at least its characters. -/
def sumTokens : Nat → List Char → List SumToken
  | 0, _ => []
  | _, [] => []
  | n + 1, c :: cs =>
    if isBlank c then sumTokens n cs
    else if c.isDigit then
      let word := (c :: cs).takeWhile Char.isAlphanum
      .number (numberOf (String.ofList word)) :: sumTokens n ((c :: cs).drop word.length)
    else if c.isAlpha ∨ c = '_' then
      let isPart := fun (d : Char) => d.isAlphanum || d = '_'
      .name (String.ofList ((c :: cs).takeWhile isPart)) :: sumTokens n ((c :: cs).dropWhile isPart)
    else if (c :: cs).take 2 ∈ longSigns then
      .sign (String.ofList ((c :: cs).take 2)) :: sumTokens n (cs.drop 1)
    else .sign (String.singleton c) :: sumTokens n cs

/-- The binary signs by rank, the loosest first. -/
def signRanks : List (List String) :=
  [["||"], ["&&"], ["|"], ["^"], ["&"], ["==", "!="], ["<", "<=", ">", ">="], ["<<", ">>"],
    ["+", "-"], ["*", "/", "%"]]

/-- One for a truth and zero for a falsehood. -/
def truth (b : Bool) : Int :=
  if b then 1 else 0

/-- The value of a binary sign. Nothing is divided by zero. -/
def applySign (sign : String) (a b : Int) : Option Int :=
  match sign with
  | "+" => some (a + b)
  | "-" => some (a - b)
  | "*" => some (a * b)
  | "/" => if b = 0 then none else some (a.tdiv b)
  | "%" => if b = 0 then none else some (a.tmod b)
  | "<" => some (truth (a < b))
  | "<=" => some (truth (a ≤ b))
  | ">" => some (truth (a > b))
  | ">=" => some (truth (a ≥ b))
  | "==" => some (truth (a = b))
  | "!=" => some (truth (a ≠ b))
  | "&&" => some (truth (a ≠ 0 ∧ b ≠ 0))
  | "||" => some (truth (a ≠ 0 ∨ b ≠ 0))
  | "<<" => some (a * (Nat.pow 2 b.toNat : Int))
  | ">>" => some (a / (Nat.pow 2 b.toNat : Int))
  | _ => none

mutual

/-- A value without binary signs, and the tokens after it. -/
def sumUnit (look : String → Int) : Nat → List SumToken → Option (Int × List SumToken)
  | 0, _ => none
  | n + 1, .sign "-" :: ts => (sumUnit look n ts).map fun r => (-r.1, r.2)
  | n + 1, .sign "+" :: ts => sumUnit look n ts
  | n + 1, .sign "!" :: ts => (sumUnit look n ts).map fun r => (truth (r.1 = 0), r.2)
  | n + 1, .sign "(" :: ts => do
    let (value, rest) ← sumOver look n signRanks ts
    match rest with
    | .sign ")" :: rest => pure (value, rest)
    | _ => none
  | _, .number k :: ts => some (k, ts)
  | _, .name s :: ts => some (look s, ts)
  | _, _ => none

/-- A value with the binary signs of some ranks, and the tokens after it. -/
def sumOver (look : String → Int) :
    Nat → List (List String) → List SumToken → Option (Int × List SumToken)
  | 0, _, _ => none
  | n + 1, [], ts => sumUnit look n ts
  | n + 1, signs :: ranks, ts => do
    let (first, rest) ← sumOver look n ranks ts
    sumMore look n signs ranks first rest

/-- Goes on with the signs of one rank. -/
def sumMore (look : String → Int) :
    Nat → List String → List (List String) → Int → List SumToken → Option (Int × List SumToken)
  | 0, _, _, _, _ => none
  | n + 1, signs, ranks, first, .sign s :: ts =>
    if s ∈ signs then do
      let (second, rest) ← sumOver look n ranks ts
      sumMore look n signs ranks (← applySign s first second) rest
    else some (first, .sign s :: ts)
  | _, _, _, first, ts => some (first, ts)

end

/-- The value of an expression. -/
def sumValue (look : String → Int) (expression : String) : Option Int :=
  let cs := expression.toList
  let ts := sumTokens (cs.length + 1) cs
  match sumOver look (16 * (ts.length + 2)) signRanks ts with
  | some (value, []) => some value
  | _ => if ts.isEmpty then some 0 else none

end StoryBuild.Shell
