import StoryBuild.Path.Basic

namespace StoryBuild

/-- Cuts a name at its last dot into stem and extension. -/
def splitName (name : List Char) : List Char × Option (List Char) :=
  if '.' ∈ name.drop 1 then
    let ending := (name.reverse.takeWhile (· ≠ '.')).reverse
    (name.take (name.length - ending.length - 1), some ending)
  else (name, none)

namespace Path

/-- The extension of the file name of a path. -/
def extension? (p : Path) : Option String :=
  p.fileName?.bind fun name => (splitName name.toList).2.map String.ofList

/-- A path with another extension. A path without a file name stays as it is. -/
def withExtension (p : Path) (ending : String) : Path :=
  match p.fileName? with
  | none => p
  | some name =>
    let pieces := dropFiller (cutAt '/' p.text.toList)
    let stem := (splitName name.toList).1
    ofPieces (pieces.dropLast ++ [stem ++ '.' :: ending.toList])

/-- Whether some name in a path starts with a dot. -/
def isHidden (p : Path) : Bool :=
  p.parts.any fun
    | .name s => s.startsWith "."
    | _ => false

end Path

end StoryBuild
