import StoryBuild.Shell.Spelling

namespace StoryBuild.Shell

/-- A document that is announced: its closing word, whether its text is taken as it stands, and
whether tabs in front of lines are dropped. -/
structure Inlay where
  closing : List Char
  literal : Bool
  untabbed : Bool

/-- Reads the closing word of a document. -/
def readClosing (untabbed : Bool) (cs : List Char) : Inlay × List Char :=
  match cs with
  | '\x27' :: cs =>
    (⟨cs.takeWhile (· ≠ '\x27'), true, untabbed⟩, (cs.dropWhile (· ≠ '\x27')).drop 1)
  | '\x22' :: cs =>
    (⟨cs.takeWhile (· ≠ '\x22'), true, untabbed⟩, (cs.dropWhile (· ≠ '\x22')).drop 1)
  | '\\' :: cs => (⟨cs.takeWhile (!isMeta ·), true, untabbed⟩, cs.dropWhile (!isMeta ·))
  | cs => (⟨cs.takeWhile (!isMeta ·), false, untabbed⟩, cs.dropWhile (!isMeta ·))

/-- Splits the lines of a document from those after it. -/
def splitDocument (d : Inlay) : List (List Char) → List (List Char) × List (List Char)
  | [] => ([], [])
  | line :: rest =>
    let line := if d.untabbed then line.dropWhile (· = '\t') else line
    if line = d.closing then ([], rest)
    else
      let (body, after) := splitDocument d rest
      (line :: body, after)

/-- A text as one quoted word. -/
def quotedWord (literal : Bool) (cs : List Char) : List Char :=
  if literal then
    ['\x27'] ++ cs.flatMap (fun c => if c = '\x27' then "'\\''".toList else [c]) ++ ['\x27']
  else
    ['\x22'] ++ cs.flatMap (fun c => if c = '\x22' then ['\\', '\x22'] else [c]) ++ ['\x22']

/-- The lines of a document as one text. -/
def documentText (body : List (List Char)) : List Char :=
  body.flatMap (· ++ ['\n'])

/-- What a scan of a line stands in: nothing, quotes of a kind, or an expression in brackets. -/
inductive ScanState where
  | bare
  | quoted (mark : Char)
  | sum
  deriving DecidableEq

/-- Moves the documents that a line announces into the line. The lines after it are given, and
those that are left are returned. The steps allowed are at least the characters of the line. -/
def inlayLine : Nat → ScanState → List Char → List (List Char) →
    List Char × ScanState × List (List Char)
  | 0, state, line, after => (line, state, after)
  | _, state, [], after => ([], state, after)
  | n + 1, state, '\\' :: c :: cs, after =>
    if state = .quoted '\x27' then
      let (line, state, after) := inlayLine n state (c :: cs) after
      ('\\' :: line, state, after)
    else
      let (line, state, after) := inlayLine n state cs after
      ('\\' :: c :: line, state, after)
  | _, .bare, ' ' :: '#' :: cs, after => (' ' :: '#' :: cs, .bare, after)
  | n + 1, .bare, '<' :: '<' :: cs, after =>
    let (untabbed, cs) := match cs with
      | '-' :: rest => (true, rest)
      | rest => (false, rest)
    let (d, cs) := readClosing untabbed (skipBlank cs)
    let (body, after) := splitDocument d after
    let (line, state, after) := inlayLine n .bare cs after
    ('<' :: '\x01' :: quotedWord d.literal (documentText body) ++ line, state, after)
  | n + 1, state, c :: cs, after =>
    let next := match state, c, cs with
      | .bare, '\x27', _ => ScanState.quoted '\x27'
      | .bare, '\x22', _ => .quoted '\x22'
      | .bare, '(', '(' :: _ => .sum
      | .sum, ')', ')' :: _ => .bare
      | .quoted mark, c, _ => if c = mark then .bare else state
      | state, _, _ => state
    let (line, last, after) := inlayLine n next cs after
    (c :: line, last, after)

/-- Moves the documents of a script into the lines that announce them. The steps allowed are at
least the lines. -/
def inlayLines : Nat → ScanState → List (List Char) → List (List Char)
  | 0, _, lines => lines
  | _, _, [] => []
  | n + 1, state, line :: rest =>
    if state = .bare ∧ line.head? = some '#' then line :: inlayLines n state rest
    else
      let (line, state, rest) := inlayLine (line.length + 1) state line rest
      line :: inlayLines n state rest

/-- Moves all documents of a script into place. -/
def inlayAll (cs : List Char) : List Char :=
  let lines := cutAt '\n' cs
  gather '\n' (inlayLines (lines.length + 1) .bare lines)

end StoryBuild.Shell
