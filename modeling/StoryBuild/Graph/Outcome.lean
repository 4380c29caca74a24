import StoryBuild.Graph.Ownership

namespace StoryBuild.FileGraph

/-- The file of a family that a reported name means: the file reached from the directory of the
master, or else the first whose path is the name or ends in it after a slash. -/
def familyFile? (master : Path) (family : List Path) (name : String) : Option Path :=
  let byPath := (master.dirOf.resolveInclude name).filter fun p => family.any (· == p)
  match byPath with
  | some p => some p
  | none =>
    let wanted := (slashed name).toList
    family.find? fun p =>
      let text := (slashed p.text).toList
      text == wanted || ('/' :: wanted).isSuffixOf text

/-- Whether a compile of `master` speaks for a file. -/
def speaksFor (g : FileGraph) (master p : Path) : Bool :=
  p == master || (g.file? p).any (·.isOwnedBy master)

/-- The file that a diagnostic is put on. -/
def ownerOf (g : FileGraph) (master : Path) (family : List Path) (d : Diagnostic) : Path :=
  ((d.file.bind (familyFile? master family)).filter (g.speaksFor master)).getD master

/-- Forgets what earlier compiles of a master said. -/
def clearFamily (g : FileGraph) (master : Path) (family : List Path) : FileGraph :=
  g.mapFiles fun f =>
    if family.any (· == f.path) && (f.path == master || f.isOwnedBy master) then
      f.clearDiagnostics
    else f

/-- Puts the result of a compile on record. A compile without an artifact leaves the known artifact
as it was. -/
def applyOutcome (g : FileGraph) (master : Path) (diagnostics : List Diagnostic)
    (unhandled : List String) (artifact : Option Path) (time : Nat) : FileGraph :=
  let family := g.family master
  let cleared := g.clearFamily master family
  let filled := diagnostics.foldl
    (fun h d => h.update (g.ownerOf master family d) (·.addDiagnostic d)) cleared
  filled.update master fun f =>
    { f with unhandled, compiled := some time, artifact := artifact <|> f.artifact }

/-- Whether a file of the family of a master carries an error. -/
def familyHasErrors (g : FileGraph) (master : Path) : Bool :=
  (g.family master).any fun p => (g.file? p).any SourceFile.hasErrors

end StoryBuild.FileGraph
