import StoryBuild.Path.Basic

namespace StoryBuild.Path

/-- Walks over parts with the names that lead to the current place, innermost first. A step up
from the base and a root are refused. -/
def walk : List String → List Part → Option (List String)
  | names, [] => some names
  | names, .here :: rest => walk names rest
  | [], .up :: _ => none
  | _ :: names, .up :: rest => walk names rest
  | names, .name s :: rest => walk (s :: names) rest
  | _, .root :: _ => none

/-- A relative path without dots and steps up, if one is left that stays below its base. -/
def normalize (p : Path) : Option Path :=
  match walk [] p.parts with
  | none => none
  | some [] => none
  | some names => some (ofNames names.reverse)

/-- Whether a path is made of names alone. -/
def IsNormal (p : Path) : Prop :=
  p.parts ≠ [] ∧ ∀ part ∈ p.parts, ∃ s, part = .name s

/-- The file that an include text means in a directory, both seen from the project root.
Backslashes count as slashes; absolute texts and texts that leave the project mean nothing. -/
def resolveInclude (dir : Path) (raw : String) : Option Path :=
  let target := ofText (slashed raw)
  if target.isAbsolute then none else normalize (dir.join target)

/-- A path seen from a root: a relative path counts as seen from there already. -/
def relativeTo (root p : Path) : Option Path :=
  if p.isAbsolute then (stripPrefix? root p).bind normalize else normalize p

end StoryBuild.Path
