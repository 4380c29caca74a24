import StoryBuild.Log
import StoryBuild.Path.Basic
import StoryBuild.Text.Blank
import StoryBuild.Text.Digit

namespace StoryBuild

/-- How many levels a rule lets through, from the rarest on. Nothing passes at zero. -/
abbrev LogRank := Nat

/-- Every level passes. -/
def everyLevel : LogRank := LogLevel.trace.rank

/-- One rule of a filter. -/
structure LogRule where
  target : Option String := none
  rank : LogRank := everyLevel
  /-- Whether the rule is about spans only, which no line stands in. -/
  spansOnly : Bool := false
  deriving DecidableEq

/-- The rules of a filter in the order in which they were given. -/
structure LogFilter where
  rules : List LogRule

namespace LogRule

/-- Whether a rule is about lines of a part. -/
def covers (r : LogRule) (area : LogArea) : Bool :=
  !r.spansOnly && r.target.all fun t => t.toList.isPrefixOf area.target.toList

/-- How closely a rule names its lines. -/
def weight (r : LogRule) : Nat :=
  match r.target with
  | some t => t.length + 1
  | none => 0

end LogRule

namespace LogFilter

/-- The filter with one level for everything. -/
def upTo (level : LogLevel) : LogFilter :=
  ⟨[{ rank := level.rank }]⟩

/-- The rule that decides about a part: the closest, and of equal ones the last. -/
def decisive (f : LogFilter) (area : LogArea) : Option LogRule :=
  (f.rules.filter (·.covers area)).foldl (fun best r =>
    match best with
    | some b => if b.weight ≤ r.weight then some r else some b
    | none => some r) none

/-- Whether a line is shown. Where no rule decides, nothing is. -/
def shows (f : LogFilter) (line : LogLine) : Bool :=
  (f.decisive line.area).any fun r => line.level.rank ≤ r.rank

end LogFilter

/-- The names of the levels of rules, from the lowest rank on. -/
def rankNames : List String :=
  "off" :: LogLevel.all.map LogLevel.word

/-- Reads the level of a rule: a name in any case, or a number. -/
def readRank (cs : List Char) : Option LogRank :=
  let digits := match cs with
    | '+' :: ds => ds
    | ds => ds
  match readDecimal digits with
  | some n => if n ≤ everyLevel then some n else none
  | none => rankNames.idxOf? (String.ofList (cs.map Char.toLower))

/-- Reads the level after an equals sign. Without one every level passes. -/
def readRankOr (cs : List Char) : Option LogRank :=
  if cs = [] then some everyLevel else readRank cs

/-- Whether a rule may start with a character. -/
def startsRule (c : Char) : Bool :=
  c.isAlphanum || c = '-' || c = ':' || c = '_' || 128 ≤ c.toNat

/-- Reads the part of a rule after an opening bracket: a span, maybe with fields, and maybe a
level. -/
def readSpanRule (target : Option String) (cs : List Char) : Option LogRule :=
  let close (cs : List Char) : Option LogRule :=
    match cs with
    | [']'] => some { target, spansOnly := true }
    | ']' :: '=' :: level => (readRankOr level).map fun rank => { target, rank, spansOnly := true }
    | _ => none
  match cs.dropWhile fun c => c ≠ ']' ∧ c ≠ '\x7b' with
  | '\x7b' :: '\x7d' :: _ => none
  | '\x7b' :: fields => close ((fields.dropWhile (· ≠ '\x7d')).drop 1)
  | rest => close rest

/-- Reads one rule. The blanks around it are passed over, but the places of its parts are counted
in the text with its blanks. -/
def readRule (cs : List Char) : Option LogRule :=
  let inner := trim cs
  let name := inner.takeWhile fun c => c ≠ '=' ∧ c ≠ '['
  let target := String.ofList (cs.take name.length)
  match name, inner.drop name.length with
  | [], '[' :: rest => readSpanRule none rest
  | [], _ => none
  | c :: _, rest =>
    if !startsRule c then none
    else
      match rest with
      | '=' :: _ =>
        (readRankOr (cs.drop (name.length + 1))).map fun rank => { target := some target, rank }
      | '[' :: rest => readSpanRule (some target) rest
      | _ =>
        match readRank cs with
        | some rank => some { rank }
        | none => some { target := some (String.ofList cs) }

/-- Reads a filter. Empty rules are left out; a filter without rules shows nothing. -/
def LogFilter.parse (text : String) : Option LogFilter :=
  (((cutAt ',' text.toList).filter (· ≠ [])).mapM readRule).map LogFilter.mk

end StoryBuild
