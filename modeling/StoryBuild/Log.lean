namespace StoryBuild

/-- How loud a log line is. -/
inductive LogLevel where
  | error
  | warn
  | info
  | debug
  | trace
  deriving DecidableEq, Inhabited

/-- The name of a level in a log. -/
def LogLevel.name : LogLevel → String
  | error => "ERROR"
  | warn => "WARN"
  | info => "INFO"
  | debug => "DEBUG"
  | trace => "TRACE"

/-- Every level, the rarest lines first. -/
def LogLevel.all : List LogLevel := [error, warn, info, debug, trace]

/-- The name of a level where one is asked for. -/
def LogLevel.word : LogLevel → String
  | error => "error"
  | warn => "warn"
  | info => "info"
  | debug => "debug"
  | trace => "trace"

/-- How much a level lets through: the rarest lines have rank one. -/
def LogLevel.rank : LogLevel → Nat
  | error => 1
  | warn => 2
  | info => 3
  | debug => 4
  | trace => 5

/-- The part of the program that a log line comes from. -/
inductive LogArea where
  | program
  | graph
  | engine
  | loop
  | snapshot
  | worker
  | command
  | diagnostics
  | host
  | watcher
  deriving DecidableEq, Inhabited

/-- The name of a part in a log. Filters go by it. -/
def LogArea.target : LogArea → String
  | program => "inkwatch"
  | graph => "inkwatch::graph::file_graph"
  | engine => "inkwatch::engine::orchestrator"
  | loop => "inkwatch::engine::runtime"
  | snapshot => "inkwatch::engine::state"
  | worker => "inkwatch::compiler::worker"
  | command => "inkwatch::compiler::process"
  | diagnostics => "inkwatch::diagnostics"
  | host => "inkwatch::host"
  | watcher => "inkwatch::watch::watcher"

/-- One line of a log. -/
structure LogLine where
  area : LogArea
  level : LogLevel
  message : String
  deriving DecidableEq

end StoryBuild
