import StoryBuild.Number

namespace StoryBuild

/-- How a table came about: it is needed by a longer header, by a dotted key, has a header of its
own, or stands between braces. -/
inductive TableKind where
  | implied
  | dotted
  | headed
  | closed
  deriving DecidableEq, Inhabited

/-- A TOML value. Dates and times are read and not kept. -/
inductive Toml where
  | text (s : String)
  | integer (n : Int)
  | float (x : Number)
  | bool (b : Bool)
  | moment
  | array (ofHeaders : Bool) (items : List Toml)
  | table (kind : TableKind) (fields : List (String × Toml))
  deriving Inhabited

/-- A table: its kind, which decides what may be added later, and its fields in the order of the
text. -/
structure TomlTable where
  kind : TableKind
  fields : List (String × Toml)

/-- A table as a value. -/
def TomlTable.toToml (t : TomlTable) : Toml :=
  .table t.kind t.fields

end StoryBuild
