import StoryBuild.Glob.Basic

namespace StoryBuild

/-- An open group: the tokens in front of it and its finished branches, both backwards. -/
structure OpenGroup where
  before : List GlobToken
  done : List (List GlobToken)

/-- An open character class: what it has so far, backwards; whether a character was read; and
whether a range waits for its end. -/
structure OpenClass where
  negated : Bool
  ranges : List (Char × Char) := []
  begun : Bool := false
  inRange : Bool := false

/-- Where a reader stands: the character before, the tokens of the branch backwards, the groups
around it from the inside, and the class that is open. -/
structure GlobReader where
  last : Option Char := none
  tokens : List GlobToken := []
  groups : List OpenGroup := []
  cls : Option OpenClass := none

namespace GlobReader

/-- Adds a token and moves over a character. -/
def push (r : GlobReader) (t : GlobToken) (c : Char) : GlobReader :=
  { r with tokens := t :: r.tokens, last := some c }

/-- Adds two stars that stand for nothing special. -/
def pushStars (r : GlobReader) : GlobReader :=
  { r with tokens := .many :: .many :: r.tokens, last := some '*' }

/-- Puts a token for directories in place of the slash before it. Directories in front stay what
they are, and so does everything below a directory. -/
def replaceLast (r : GlobReader) (t : GlobToken) (c : Char) : GlobReader :=
  let tokens :=
    match r.tokens with
    | .leading :: rest => .leading :: rest
    | .trailing :: rest => .trailing :: rest
    | _ :: rest => t :: rest
    | [] => [t]
  { r with tokens, last := some c }

/-- Opens a group of alternatives. -/
def openGroup (r : GlobReader) : GlobReader :=
  { r with groups := ⟨r.tokens, []⟩ :: r.groups, tokens := [], last := some '\x7b' }

/-- Ends a branch. Outside of groups a comma is a character like others. -/
def nextBranch (r : GlobReader) : GlobReader :=
  match r.groups with
  | [] => r.push (.literal ',') ','
  | g :: rest =>
    { r with
      groups := ⟨g.before, r.tokens.reverse :: g.done⟩ :: rest
      tokens := []
      last := some ',' }

/-- Ends a group of alternatives. -/
def closeGroup (r : GlobReader) : Except GlobFault GlobReader :=
  match r.groups with
  | [] => .error .unopenedGroup
  | g :: rest =>
    .ok { r with
      groups := rest
      tokens := .choice (r.tokens.reverse :: g.done).reverse :: g.before
      last := some '\x7d' }

/-- Ends a class. A dash that waits for the end of a range counts as itself. -/
def closeClass (r : GlobReader) (c : OpenClass) : GlobReader :=
  let ranges := if c.inRange then ('-', '-') :: c.ranges else c.ranges
  { r with cls := none, tokens := .oneOf c.negated ranges.reverse :: r.tokens, last := some ']' }

/-- Ends a range at a character. -/
def endRange (c : OpenClass) (last : Char) : Except GlobFault OpenClass :=
  match c.ranges with
  | (first, _) :: rest =>
    if last < first then .error (.invalidRange first last)
    else .ok { c with ranges := (first, last) :: rest, inRange := false, begun := true }
  | [] => .ok { c with inRange := false }

/-- One character of a class that does not end it. -/
def classChar (c : OpenClass) (x : Char) : Except GlobFault OpenClass :=
  if c.inRange then endRange c x
  else if x = '-' ∧ c.begun then .ok { c with inRange := true }
  else .ok { c with ranges := (x, x) :: c.ranges, begun := true }

/-- Whether two stars here can stand for directories: after a slash, or at the start of a branch
as far as the character before tells. -/
def atBoundary (r : GlobReader) : Bool :=
  r.last = some '/' || (!r.groups.isEmpty && (r.last = some ',' || r.last = some '\x7b'))

/-- Whether the current branch ends here. -/
def branchEnds (r : GlobReader) : List Char → Bool
  | [] => true
  | c :: _ => !r.groups.isEmpty && (c = ',' || c = '\x7d')

/-- Reads characters. -/
def read (r : GlobReader) : List Char → Except GlobFault GlobReader
  | [] => if r.cls.isSome then .error .unclosedClass else .ok r
  | x :: cs =>
    match r.cls with
    | some c =>
      if x = ']' ∧ c.begun then read (r.closeClass c) cs
      else
        match classChar c x with
        | .error fault => .error fault
        | .ok c => read { r with cls := some c } cs
    | none =>
      match x, cs with
      | '*', '*' :: '/' :: rest =>
        if r.tokens.isEmpty then read (r.push .leading '/') rest
        else if r.atBoundary then read (r.replaceLast .between '/') rest
        else read r.pushStars ('/' :: rest)
      | '*', '*' :: rest =>
        if r.tokens.isEmpty then
          if rest = [] then read (r.push .leading '*') rest else read r.pushStars rest
        else if r.atBoundary && r.branchEnds rest then read (r.replaceLast .trailing '*') rest
        else read r.pushStars rest
      | '[', '!' :: rest => read { r with cls := some { negated := true } } rest
      | '[', '^' :: rest => read { r with cls := some { negated := true } } rest
      | '\\', [] => .error .danglingEscape
      | '\\', y :: rest => read (r.push (.literal y) y) rest
      | '\x7d', cs =>
        match r.closeGroup with
        | .error fault => .error fault
        | .ok r => read r cs
      | '?', cs => read (r.push .any '?') cs
      | '*', cs => read (r.push .many '*') cs
      | '[', cs => read { r with cls := some { negated := false } } cs
      | '\x7b', cs => read r.openGroup cs
      | ',', cs => read r.nextBranch cs
      | x, cs => read (r.push (.literal x) x) cs
termination_by cs => cs.length
decreasing_by all_goals simp only [List.length_cons]; omega

end GlobReader

/-- The tokens of a glob. -/
def readGlob (text : String) : Except GlobError (List GlobToken) :=
  match GlobReader.read {} text.toList with
  | .error fault => .error ⟨text, fault⟩
  | .ok r => if r.groups.isEmpty then .ok r.tokens.reverse else .error ⟨text, .unclosedGroup⟩

end StoryBuild
