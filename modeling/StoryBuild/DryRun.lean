import StoryBuild.Config
import StoryBuild.Graph.Ownership

namespace StoryBuild.DryRun

/-- The lines about the project. -/
def projectLines (c : Config) (g : FileGraph) : List String :=
  let compile := c.settings.compile
  ["inkwatch dry-run", s!"  root = {g.root.text}",
    s!"  compiler = {compile.command} " ++ " ".intercalate compile.args,
    s!"  timeout = {durationText c.timeout}", ""]

/-- The lines about one master. -/
def masterLines (g : FileGraph) (stale : List Path) (master : Path) : List String :=
  let state := if stale.any (· == master) then "needs compile" else "up to date"
  [s!"  - {master.text} [{state}]", s!"      artifact: {(g.artifactPath master).text}"] ++
    ((g.family master).drop 1).map fun p => s!"      includes: {p.text}"

/-- The lines about the files with issues, if there are any. -/
def issueLines (g : FileGraph) : List String :=
  let troubled := g.files.filter fun f => !f.issues.isEmpty
  if troubled.isEmpty then []
  else
    ["", s!"structural issues ({troubled.length}):"] ++ troubled.flatMap fun f =>
      f.issues.map fun issue => s!"  - {f.path.text}: {issue.message}"

/-- All lines, given the stale masters. -/
def lines (c : Config) (g : FileGraph) (stale : List Path) : List String :=
  let masters := g.masterFiles.map SourceFile.path
  projectLines c g ++ [s!"masters ({masters.length}):"] ++
    masters.flatMap (masterLines g stale) ++ issueLines g

/-- The whole report. -/
def report (c : Config) (g : FileGraph) (stale : List Path) : String :=
  String.join ((lines c g stale).map (· ++ "\n"))

end StoryBuild.DryRun
