namespace StoryBuild.Shell

/-- One token of a pattern. -/
inductive PatternToken where
  | one (c : Char)
  | any
  | many
  | among (negated : Bool) (ranges : List (Char × Char))

/-- The ranges between brackets. -/
def readRanges : List Char → List (Char × Char)
  | a :: '-' :: b :: rest => (a, b) :: readRanges rest
  | a :: rest => (a, a) :: readRanges rest
  | [] => []

/-- The tokens of a pattern whose characters may be protected. The steps allowed are at least its
characters. -/
def readPattern : Nat → List (Bool × Char) → List PatternToken
  | 0, _ => []
  | _, [] => []
  | n + 1, (true, c) :: cs => .one c :: readPattern n cs
  | n + 1, (false, '*') :: cs => .many :: readPattern n cs
  | n + 1, (false, '?') :: cs => .any :: readPattern n cs
  | n + 1, (false, '[') :: cs =>
    let (negated, body) := match cs with
      | (false, '!') :: rest => (true, rest)
      | rest => (false, rest)
    let inside := body.take 1 ++ (body.drop 1).takeWhile fun e => e.2 ≠ ']'
    let rest := body.drop inside.length
    if rest.isEmpty ∨ inside.isEmpty then .one '[' :: readPattern n cs
    else .among negated (readRanges (inside.map Prod.snd)) :: readPattern n (rest.drop 1)
  | n + 1, (false, c) :: cs => .one c :: readPattern n cs

/-- Whether tokens match a whole text. -/
def patternMatches : List PatternToken → List Char → Bool
  | [], cs => cs.isEmpty
  | .one a :: ts, c :: cs => a = c && patternMatches ts cs
  | .any :: ts, _ :: cs => patternMatches ts cs
  | .among negated ranges :: ts, c :: cs =>
    ((ranges.any fun r => r.1 ≤ c && c ≤ r.2) != negated) && patternMatches ts cs
  | .many :: ts, cs => (restsOfText cs).any (patternMatches ts)
  | _, [] => false
where
  /-- A text and all its ends. -/
  restsOfText : List Char → List (List Char)
    | [] => [[]]
    | c :: cs => (c :: cs) :: restsOfText cs

end StoryBuild.Shell
