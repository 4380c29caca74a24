import StoryBuild.Duration
import StoryBuild.Glob.Matching
import StoryBuild.Graph.Basic
import StoryBuild.Storage
import StoryBuild.Toml.Reader

namespace StoryBuild

/-- Where the story is and what belongs to it. -/
structure ProjectConfig where
  root : Path := .ofText "."
  extension : String := "ink"
  exclude : List String := []
  outputDir : Option Path := none
  stateDir : Path := .ofText ".inkwatch"

/-- How and when the story is compiled. -/
structure CompileConfig where
  command : String := "inklecate"
  args : List String := ["-o", "\x7boutput\x7d", "\x7binput\x7d"]
  timeout : String := "30s"
  slowFraction : Number := .finite false (binary64.nearest 8 10)
  pollInterval : String := "100ms"
  compileOnChange : Bool := true
  manualOnly : List String := []
  compileOnStartup : Bool := true
  logDiagnostics : Bool := true

/-- The two sections as they are written. -/
structure Settings where
  project : ProjectConfig := {}
  compile : CompileConfig := {}

/-- What is wrong with a setting. -/
inductive ConfigError where
  | noExtension
  | dottedExtension (extension : String)
  | noStateDir
  | noCommand
  | badFraction (x : Number)
  | badDuration (setting : String) (cause : DurationError)
  | zeroDuration (setting : String)
  | badGlob (setting pattern : String) (cause : GlobError)

/-- The wording for a wrong setting. -/
def ConfigError.message : ConfigError → String
  | noExtension => "[project].extension must not be empty"
  | dottedExtension e => s!"[project].extension must not start with a dot (got \"{e}\")"
  | noStateDir => "[project].state_dir must not be empty"
  | noCommand => "[compile].command must not be empty"
  | badFraction x => s!"[compile].slow_warning_fraction must be in (0, 1] (got {x.text})"
  | badDuration setting cause => s!"{setting}: {cause.message}"
  | zeroDuration setting => s!"{setting} must be greater than zero"
  | badGlob setting pattern cause => s!"{setting}: invalid glob '{pattern}': {cause.message}"

namespace Toml

/-- A value that is a text. -/
def asText? : Toml → Option String
  | .text s => some s
  | _ => none

/-- A value that is a truth value. -/
def asBool? : Toml → Option Bool
  | .bool b => some b
  | _ => none

/-- A number; whole numbers count if they fit in 64 bits with or without a sign. -/
def asNumber? : Toml → Option Number
  | .float x => some x
  | .integer n => 
    if -(Nat.pow 2 63 : Int) ≤ n ∧ n < (Nat.pow 2 64 : Int) then some (.ofInt n) else none
  | _ => none

/-- A value that is a list of texts. -/
def asTexts? : Toml → Option (List String)
  | .array _ items => items.mapM asText?
  | _ => none

/-- A text as a path. -/
def asPath? (v : Toml) : Option Path :=
  v.asText?.map Path.ofText

/-- The settings of a section, which is a table, or a list that gives them in order. -/
def section? (names : List String) : Toml → Option (List (String × Toml))
  | .table _ fields => some fields
  | .array _ items => some (names.zip items)
  | _ => none

end Toml

/-- A setting, or its default where it is missing. A setting of another type is refused. -/
def settingOr {α : Type} (fields : List (String × Toml)) (key : String) (read : Toml → Option α)
    (default : α) : Option α :=
  match fields.lookup key with
  | none => some default
  | some v => read v

/-- The section about the project. -/
def ProjectConfig.ofFields? (fields : List (String × Toml)) : Option ProjectConfig := do
  let d : ProjectConfig := {}
  pure {
    root := ← settingOr fields "root" Toml.asPath? d.root
    extension := ← settingOr fields "extension" Toml.asText? d.extension
    exclude := ← settingOr fields "exclude" Toml.asTexts? d.exclude
    outputDir := ← settingOr fields "output_dir" (fun v => v.asPath?.map some) d.outputDir
    stateDir := ← settingOr fields "state_dir" Toml.asPath? d.stateDir }

/-- The section about compiles. -/
def CompileConfig.ofFields? (fields : List (String × Toml)) : Option CompileConfig := do
  let d : CompileConfig := {}
  pure {
    command := ← settingOr fields "command" Toml.asText? d.command
    args := ← settingOr fields "args" Toml.asTexts? d.args
    timeout := ← settingOr fields "timeout" Toml.asText? d.timeout
    slowFraction := ← settingOr fields "slow_warning_fraction" Toml.asNumber? d.slowFraction
    pollInterval := ← settingOr fields "poll_interval" Toml.asText? d.pollInterval
    compileOnChange := ← settingOr fields "compile_on_change" Toml.asBool? d.compileOnChange
    manualOnly := ← settingOr fields "manual_only" Toml.asTexts? d.manualOnly
    compileOnStartup := ← settingOr fields "compile_on_startup" Toml.asBool? d.compileOnStartup
    logDiagnostics := ← settingOr fields "log_diagnostics" Toml.asBool? d.logDiagnostics }

/-- The settings of the section about the project, in their order. -/
def projectNames : List String :=
  ["root", "extension", "exclude", "output_dir", "state_dir"]

/-- The settings of the section about compiles, in their order. -/
def compileNames : List String :=
  ["command", "args", "timeout", "slow_warning_fraction", "poll_interval", "compile_on_change",
    "manual_only", "compile_on_startup", "log_diagnostics"]

/-- The sections of a document. -/
def Settings.ofToml? (t : TomlTable) : Option Settings := do
  pure {
    project := ← settingOr t.fields "project"
      (fun v => (v.section? projectNames).bind ProjectConfig.ofFields?) {}
    compile := ← settingOr t.fields "compile"
      (fun v => (v.section? compileNames).bind CompileConfig.ofFields?) {} }

/-- A configuration whose settings have been checked. Durations are in milliseconds. -/
structure Config where
  settings : Settings
  timeout : Nat
  pollInterval : Nat
  exclude : List (List GlobToken)
  manualOnly : List (List GlobToken)

namespace Config

/-- Checks the section about the project. -/
def checkProject (p : ProjectConfig) : Except ConfigError Unit :=
  let extension := trimText p.extension
  if extension = "" then .error .noExtension
  else if extension.toList.head? = some '.' then .error (.dottedExtension extension)
  else if p.stateDir.text = "" then .error .noStateDir
  else .ok ()

/-- Checks the section about compiles. -/
def checkCompile (c : CompileConfig) : Except ConfigError Unit :=
  if isBlankText c.command.toList then .error .noCommand
  else if !c.slowFraction.isShare then .error (.badFraction c.slowFraction)
  else .ok ()

/-- The globs of a setting. -/
def globsOf (setting : String) (patterns : List String) :
    Except ConfigError (List (List GlobToken)) :=
  patterns.mapM fun pattern => (readGlob pattern).mapError (.badGlob setting pattern)

/-- Checks settings. The first thing that is wrong is reported: first what a section holds, then
durations, then globs. -/
def check (s : Settings) : Except ConfigError Config := do
  checkProject s.project
  checkCompile s.compile
  let timeout ← (readDuration s.compile.timeout).mapError (.badDuration "[compile].timeout")
  let pollInterval ←
    (readDuration s.compile.pollInterval).mapError (.badDuration "[compile].poll_interval")
  if timeout = 0 then throw (.zeroDuration "[compile].timeout")
  if pollInterval = 0 then throw (.zeroDuration "[compile].poll_interval")
  let exclude ← globsOf "[project].exclude" s.project.exclude
  let manualOnly ← globsOf "[compile].manual_only" s.compile.manualOnly
  pure ⟨s, timeout, pollInterval, exclude, manualOnly⟩

/-- The root of the project, seen from the directory of the configuration. -/
def rootDir (c : Config) (dir : Path) : Path :=
  dir.join c.settings.project.root

/-- Where the program keeps its own files. -/
def stateDir (c : Config) (root : Path) : Path :=
  root.join c.settings.project.stateDir

/-- Where the snapshot of the queue goes. -/
def statePath (c : Config) (root : Path) : Path :=
  (c.stateDir root).join (.ofText "queue.json")

/-- Where compilers put their output first. -/
def scratchDir (c : Config) (root : Path) : Path :=
  (c.stateDir root).join (.ofText "scratch")

/-- A compile that takes longer, in nanoseconds, is warned about. -/
def slowAfter (c : Config) : Nat :=
  match c.settings.compile.slowFraction with
  | .finite _ size => partOfDuration size c.timeout
  | _ => 0

/-- What the graph goes by. -/
def graphOptions (c : Config) : GraphOptions where
  extension := c.settings.project.extension
  excluded := anyGlobMatches c.exclude
  outputDir := c.settings.project.outputDir

end Config

/-- Why there is no configuration. -/
inductive LoadError where
  | unreadable (fault : SystemFault)
  | malformed
  | invalid (cause : ConfigError)

/-- The wording for a missing configuration. -/
def LoadError.message : LoadError → String
  | unreadable fault => s!"IO error: {fault.message}"
  | malformed => "TOML parsing error"
  | invalid cause => s!"Configuration error: {cause.message}"

/-- The configuration of a file with the given bytes. -/
def Config.ofBytes (content : ByteArray) : Except LoadError Config :=
  match decodeText content with
  | .error _ => .error (.unreadable .notText)
  | .ok text =>
    match (Toml.parse text).bind Settings.ofToml? with
    | none => .error .malformed
    | some s => (Config.check s).mapError .invalid

/-- The configuration of a file, if there is one. -/
def Config.load : Option ByteArray → Except LoadError Config
  | some content => ofBytes content
  | none => .error (.unreadable .noEntry)

/-- The configuration of a file, or all defaults if there is none. -/
def Config.loadOrDefault : Option ByteArray → Except LoadError Config
  | some content => ofBytes content
  | none => (check {}).mapError .invalid

end StoryBuild
