import StoryBuild.Shell.Pattern

namespace StoryBuild.Shell

/-- A character or class, and how often it may stand. -/
structure Term where
  token : PatternToken
  least : Nat := 1
  repeats : Bool := false
  /-- Whether it may also be missing. -/
  optional : Bool := false

/-- A search pattern. -/
structure Expression where
  atStart : Bool := false
  atEnd : Bool := false
  terms : List Term

/-- Whether a token fits one character. -/
def PatternToken.fits : PatternToken → Char → Bool
  | one a, c => a = c
  | any, _ => true
  | many, _ => true
  | among negated ranges, c => (ranges.any fun r => r.1 ≤ c && c ≤ r.2) != negated

/-- Puts a repeat on the last of some terms. The terms come last first. -/
def repeatLast (f : Term → Term) : List Term → List Term
  | t :: ts => f t :: ts
  | [] => []

/-- The terms of a pattern, the last first. In an extended pattern plus and question mark repeat,
in a plain one only with a backslash. The steps allowed are at least the characters. -/
def readTerms (extended : Bool) : Nat → List Char → List Term → List Term
  | 0, _, terms => terms
  | _, [], terms => terms
  | n + 1, '\\' :: c :: cs, terms =>
    if !extended ∧ c = '+' then
      readTerms extended n cs (repeatLast (fun t => { t with repeats := true }) terms)
    else if !extended ∧ c = '?' then
      readTerms extended n cs (repeatLast (fun t => { t with optional := true }) terms)
    else readTerms extended n cs (⟨.one c, 1, false, false⟩ :: terms)
  | n + 1, '.' :: cs, terms => readTerms extended n cs (⟨.any, 1, false, false⟩ :: terms)
  | n + 1, '[' :: cs, terms =>
    let (negated, body) := match cs with
      | '^' :: rest => (true, rest)
      | rest => (false, rest)
    let inside := body.take 1 ++ (body.drop 1).takeWhile (· ≠ ']')
    readTerms extended n (body.drop (inside.length + 1))
      (⟨.among negated (readRanges inside), 1, false, false⟩ :: terms)
  | n + 1, c :: cs, terms =>
    if c = '*' ∧ !terms.isEmpty then
      readTerms extended n cs (repeatLast (fun t => { t with repeats := true, least := 0 }) terms)
    else if extended ∧ c = '+' then
      readTerms extended n cs (repeatLast (fun t => { t with repeats := true }) terms)
    else if extended ∧ c = '?' then
      readTerms extended n cs (repeatLast (fun t => { t with optional := true }) terms)
    else readTerms extended n cs (⟨.one c, 1, false, false⟩ :: terms)

/-- Reads a pattern. -/
def Expression.read (extended : Bool) (text : String) : Expression :=
  let cs := text.toList
  let atStart := cs.head? = some '^'
  let cs := if atStart then cs.drop 1 else cs
  let atEnd := cs.getLast? = some '$' ∧ cs.dropLast.getLast? ≠ some '\\'
  let cs := if atEnd then cs.dropLast else cs
  ⟨atStart, atEnd, (readTerms extended (cs.length + 1) cs []).reverse⟩

/-- A pattern that stands for its own characters. -/
def Expression.plain (text : String) : Expression :=
  ⟨false, false, text.toList.map fun c => ⟨.one c, 1, false, false⟩⟩

/-- How many characters in front a term can take, the most first. -/
def Term.counts (t : Term) (cs : List Char) : List Nat :=
  let run := (cs.takeWhile t.token.fits).length
  let most := if t.repeats then run else min run 1
  let least := if t.optional then 0 else t.least
  ((List.range (most + 1)).filter (least ≤ ·)).reverse

/-- The longest stretch in front that terms take, up to the end if they are tied to it. -/
def takeTerms (atEnd : Bool) : List Term → List Char → Option Nat
  | [], cs => if atEnd ∧ cs ≠ [] then none else some 0
  | t :: ts, cs =>
    (t.counts cs).findSome? fun k => (takeTerms atEnd ts (cs.drop k)).map (k + ·)

/-- Where a pattern is found first from a place on, and how long the find is. -/
def Expression.find (e : Expression) (cs : List Char) (start : Nat) : Option (Nat × Nat) :=
  let places := if e.atStart then [0] else List.range (cs.length + 1)
  (places.filter (start ≤ ·)).findSome? fun i =>
    (takeTerms e.atEnd e.terms (cs.drop i)).map fun k => (i, k)

/-- Whether a pattern is found. -/
def Expression.occursIn (e : Expression) (line : String) : Bool :=
  (e.find line.toList 0).isSome

end StoryBuild.Shell
