import StoryBuild.Text.Blank

namespace StoryBuild

/-- One part of a path: the root, a leading dot, a step up, or a name. -/
inductive Part where
  | root
  | here
  | up
  | name (s : String)
  deriving DecidableEq, Inhabited

/-- The kinds of parts, in the order in which they sort. -/
def Part.rank : Part → Nat
  | root => 0
  | here => 1
  | up => 2
  | name _ => 3

/-- The text of a name; the other parts have none. -/
def Part.label : Part → String
  | name s => s
  | _ => ""

/-- Parts sort by kind, and names among themselves by their characters. -/
instance : Ord Part where
  compare a b := (compare a.rank b.rank).then (compare a.label b.label)

/-- The part that one piece of text between slashes names, if any: an empty piece and a dot name
nothing. -/
def partOf (piece : List Char) : Option Part :=
  if piece = [] ∨ piece = ['.'] then none
  else if piece = ['.', '.'] then some .up
  else some (.name (String.ofList piece))

/-- The parts of a text. A slash in front is the root; a dot in front is kept. -/
def partsOf (text : List Char) : List Part :=
  match cutAt '/' text with
  | [] => []
  | [] :: pieces => if text = [] then [] else .root :: pieces.filterMap partOf
  | ['.'] :: pieces => .here :: pieces.filterMap partOf
  | piece :: pieces => (piece :: pieces).filterMap partOf

/-- A path: its text, and the parts of that text. Paths are compared and ordered by their parts, so
`a//b`, `a/./b` and `a/b/` are one path, while `./a` and `a` are two. -/
structure Path where
  text : String
  parts : List Part
  parts_eq : parts = partsOf text.toList

namespace Path

/-- The path with a given text. -/
def ofText (text : String) : Path :=
  ⟨text, partsOf text.toList, rfl⟩

instance : Inhabited Path := ⟨ofText ""⟩

/-- Two paths are the same when they have the same parts. -/
instance : BEq Path where
  beq p q := p.parts == q.parts

/-- Paths sort part by part; a path comes before the paths below it. -/
instance : Ord Path where
  compare p q := compare p.parts q.parts

/-- Whether one path sorts before another. -/
def before (p q : Path) : Bool :=
  (compare p q).isLT

/-- A path from the root. -/
def isAbsolute (p : Path) : Bool :=
  p.parts.head? == some .root

/-- The path whose text has the given pieces between its slashes. -/
def ofPieces (pieces : List (List Char)) : Path :=
  ofText (String.ofList (gather '/' pieces))

/-- The relative path of a list of names. -/
def ofNames (names : List String) : Path :=
  ofPieces (names.map String.toList)

/-- A path seen from a directory. An absolute path stays as it is; a slash goes between the two
texts where the directory does not end in one. -/
def join (dir p : Path) : Path :=
  if p.isAbsolute then p
  else if dir.text.toList.getLast?.all (· == '/') then ofText (dir.text ++ p.text)
  else ofText (dir.text ++ "/" ++ p.text)

/-- The name in the last place of a path. -/
def fileName? (p : Path) : Option String :=
  match p.parts.getLast? with
  | some (.name s) => some s
  | _ => none

/-- Pieces that name no part. -/
def isFiller (piece : List Char) : Bool :=
  piece == [] || piece == ['.']

/-- Drops the pieces at the end that name no part. -/
def dropFiller (pieces : List (List Char)) : List (List Char) :=
  (pieces.reverse.dropWhile isFiller).reverse

/-- What stands in front of the last part among the pieces after an anchor, which is the root or
a leading dot. -/
def pieceParent? (pieces : List (List Char)) : Option (List (List Char)) :=
  match dropFiller pieces with
  | [] => none
  | kept => some (dropFiller kept.dropLast)

/-- A path without its last part. The root and the empty path have no parent. -/
def parent? (p : Path) : Option Path :=
  let pieces := cutAt '/' p.text.toList
  match p.parts, pieces with
  | [], _ => none
  | .root :: _, [] :: rest =>
    (pieceParent? rest).map fun kept =>
      if kept = [] then ofText "/" else ofPieces ([] :: kept)
  | .here :: _, dot :: rest =>
    match pieceParent? rest with
    | some kept => some (ofPieces (dot :: kept))
    | none => some (ofText "")
  | _, _ => (pieceParent? pieces).map ofPieces

/-- The directory of a relative file path; it is empty for a file at the top. -/
def dirOf (p : Path) : Path :=
  p.parent?.getD (ofText "")

/-- How a part is written between slashes. -/
def partText : Part → List Char
  | .root => []
  | .here => ['.']
  | .up => ['.', '.']
  | .name s => s.toList

/-- The path with the given parts, in the plainest spelling. -/
def ofParts (parts : List Part) : Path :=
  if parts = [.root] then ofText "/" else ofPieces (parts.map partText)

/-- What a path adds to a directory that it lies in. -/
def stripPrefix? (dir p : Path) : Option Path :=
  if dir.parts.isPrefixOf p.parts then some (ofParts (p.parts.drop dir.parts.length)) else none

end Path

end StoryBuild
