import StoryBuild.Glob.Reader
import StoryBuild.Path.Basic

namespace StoryBuild

/-- The bytes of a character. -/
def bytesOf (c : Char) : List UInt8 :=
  (String.singleton c).toUTF8.toList

/-- The byte of a slash. -/
def slashByte : UInt8 := 0x2F

/-- The ranges of bytes that a range of characters stands for: the bytes of both ends one by one,
and everything from the last byte of the one to the first byte of the other. -/
def byteRanges (first last : Char) : List (UInt8 × UInt8) :=
  let a := bytesOf first
  let b := bytesOf last
  if first = last then a.map fun x => (x, x)
  else
    a.dropLast.map (fun x => (x, x)) ++ [(a.getLastD 0, b.headD 0)] ++
      (b.drop 1).map fun x => (x, x)

/-- The texts left after a given start. -/
def afterBytes (lead : List UInt8) (rests : List (List UInt8)) : List (List UInt8) :=
  rests.filterMap fun r => if lead.isPrefixOf r then some (r.drop lead.length) else none

/-- The texts left after one byte of a kind. -/
def afterOne (accepts : UInt8 → Bool) (rests : List (List UInt8)) : List (List UInt8) :=
  rests.filterMap fun
    | b :: r => if accepts b then some r else none
    | [] => none

/-- A text and everything that is left when its front is taken away. -/
def restsOf : List UInt8 → List (List UInt8)
  | [] => [[]]
  | b :: r => (b :: r) :: restsOf r

/-- The texts left after any text. All of them are ends of the longest one. -/
def afterMany (rests : List (List UInt8)) : List (List UInt8) :=
  match rests.foldl (fun (best : Option (List UInt8)) r =>
      match best with
      | some b => if b.length < r.length then some r else some b
      | none => some r) none with
  | some longest => restsOf longest
  | none => []

/-- Texts that are ends of one text, each kept once. -/
def distinctRests (rests : List (List UInt8)) : List (List UInt8) :=
  rests.foldl (fun kept r => if kept.any (·.length == r.length) then kept else r :: kept) []

/-- The texts left after a slash. -/
def afterSlash (rests : List (List UInt8)) : List (List UInt8) :=
  afterBytes [slashByte] rests

mutual

/-- Whether tokens stand for nothing at all. -/
def GlobToken.isVoid : GlobToken → Bool
  | .choice branches => allVoidBranches branches
  | _ => false

/-- Whether all tokens stand for nothing. -/
def allVoid : List GlobToken → Bool
  | [] => true
  | t :: ts => t.isVoid && allVoid ts

/-- Whether all branches stand for nothing. -/
def allVoidBranches : List (List GlobToken) → Bool
  | [] => true
  | b :: bs => allVoid b && allVoidBranches bs

end

mutual

/-- The texts that can be left after a token. -/
def GlobToken.rests : GlobToken → List (List UInt8) → List (List UInt8)
  | .literal c, rs => afterBytes (bytesOf c) rs
  | .any, rs => afterOne (fun _ => true) rs
  | .many, rs => afterMany rs
  | .leading, rs => distinctRests (rs ++ afterSlash rs ++ afterSlash (afterMany rs))
  | .trailing, rs => afterMany (afterSlash rs)
  | .between, rs =>
    let inner := afterSlash rs
    distinctRests (inner ++ afterSlash (afterMany inner))
  | .oneOf negated ranges, rs =>
    let bytes := ranges.flatMap fun r => byteRanges r.1 r.2
    afterOne (fun b => (bytes.any fun r => r.1 ≤ b && b ≤ r.2) != negated) rs
  | .choice branches, rs =>
    if allVoidBranches branches then rs else distinctRests (branchRests branches rs)

/-- The texts that can be left after some tokens. -/
def tokenRests : List GlobToken → List (List UInt8) → List (List UInt8)
  | [], rs => rs
  | t :: ts, rs => tokenRests ts (t.rests rs)

/-- The texts that can be left after one of some branches. Branches that stand for nothing do not
count. -/
def branchRests : List (List GlobToken) → List (List UInt8) → List (List UInt8)
  | [], _ => []
  | b :: bs, rs => (if allVoid b then [] else tokenRests b rs) ++ branchRests bs rs

end

/-- Whether a glob matches a whole text. Two stars alone match everything. -/
def globMatches (tokens : List GlobToken) (text : List UInt8) : Bool :=
  match tokens with
  | [.leading] => true
  | _ => (tokenRests tokens [text]).any List.isEmpty

/-- Whether one of some globs matches a path, with backslashes read as slashes. -/
def anyGlobMatches (globs : List (List GlobToken)) (p : Path) : Bool :=
  let text := (slashed p.text).toUTF8.toList
  globs.any fun tokens => globMatches tokens text

/-- Reads globs up to the first that is none. -/
def readGlobs (texts : List String) : Except GlobError (List (List GlobToken)) :=
  texts.mapM readGlob

end StoryBuild
