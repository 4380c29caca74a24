import StoryBuild.Log
import StoryBuild.Text.Blank

namespace StoryBuild

/-- What a run is asked to do. -/
structure RunOptions where
  /-- Where the configuration is. -/
  config : String := "Inkwatch.toml"
  /-- Compile once and end. -/
  once : Bool := false
  /-- Compile every master, not only stale ones. -/
  force : Bool := false
  /-- Only show what would be compiled. -/
  dryRun : Bool := false
  /-- The loudness of the log, if it is given. -/
  level : Option LogLevel := none
  deriving DecidableEq

/-- What the arguments come to. -/
inductive CommandLine where
  | run (options : RunOptions)
  | version
  | help
  | misuse
  deriving DecidableEq

/-- The options that a run may be given. -/
inductive Switch where
  | config
  | once
  | force
  | dryRun
  | logLevel
  deriving DecidableEq

namespace Switch

/-- The name of an option. -/
def name : Switch → String
  | config => "--config"
  | once => "--once"
  | force => "--force"
  | dryRun => "--dry-run"
  | logLevel => "--log-level"

/-- Every option. -/
def all : List Switch := [config, once, force, dryRun, logLevel]

/-- Whether an option comes with a value. -/
def takesValue : Switch → Bool
  | config => true
  | logLevel => true
  | _ => false

/-- Makes an option hold. -/
def apply (o : RunOptions) : Switch → String → Option RunOptions
  | config, value => some { o with config := value }
  | once, _ => some { o with once := true }
  | force, _ => some { o with force := true }
  | dryRun, _ => some { o with dryRun := true }
  | logLevel, value =>
    (LogLevel.all.find? (·.word = value)).map fun l => { o with level := some l }

end Switch

namespace CommandLine

/-- Whether an argument stands for an option and not for a value. -/
def looksLikeSwitch (arg : String) : Bool :=
  arg.toList.head? = some '-' && arg ≠ "-"

/-- The name in front of an equals sign, and the value after the first one. -/
def splitValue (arg : String) : String × Option String :=
  match arg.toList.span (· ≠ '=') with
  | (name, _ :: value) => (String.ofList name, some (String.ofList value))
  | (_, []) => (arg, none)

/-- What a group of one-letter options comes to. -/
def ofLetters (arg : String) : CommandLine :=
  match arg.toList[1]? with
  | some 'V' => .version
  | some 'h' => .help
  | _ => .misuse

/-- Reads arguments; some options were given already. -/
def read (o : RunOptions) (given : List Switch) : List String → CommandLine
  | [] => .run o
  | arg :: rest =>
    if arg = "--" then if rest = [] then .run o else .misuse
    else if arg = "--version" then .version
    else if arg = "--help" then .help
    else if !arg.startsWith "--" then
      if looksLikeSwitch arg then ofLetters arg else .misuse
    else
      let (name, attached) := splitValue arg
      match Switch.all.find? (·.name = name), attached, rest with
      | none, _, _ => .misuse
      | some s, some value, rest =>
        if !s.takesValue || given.contains s then .misuse
        else
          match s.apply o value with
          | some o => read o (s :: given) rest
          | none => .misuse
      | some s, none, rest =>
        if given.contains s then .misuse
        else if !s.takesValue then
          match s.apply o "" with
          | some o => read o (s :: given) rest
          | none => .misuse
        else
          match rest with
          | [] => .misuse
          | value :: rest =>
            if looksLikeSwitch value then .misuse
            else
              match s.apply o value with
              | some o => read o (s :: given) rest
              | none => .misuse

/-- Reads all arguments from left to right. The first one that cannot be read, or that asks for the
version or for help, decides. -/
def ofArgs (args : List String) : CommandLine :=
  read {} [] args

end CommandLine

end StoryBuild
