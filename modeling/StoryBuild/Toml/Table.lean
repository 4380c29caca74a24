import StoryBuild.Toml.Basic

namespace StoryBuild.TomlTable

/-- The value of a key. -/
def find? (t : TomlTable) (key : String) : Option Toml :=
  t.fields.lookup key

/-- Sets a key; an old value keeps its place. -/
def set (t : TomlTable) (key : String) (value : Toml) : TomlTable :=
  if (t.find? key).isSome then
    { t with fields := t.fields.map fun f => if f.1 = key then (key, value) else f }
  else { t with fields := t.fields ++ [(key, value)] }

/-- Whether a key may lead into a table. A dotted key does not lead into a table that has a header
of its own. -/
def admits (dotted : Bool) (kind : TableKind) : Bool :=
  match kind with
  | .closed => false
  | .headed => !dotted
  | _ => true

/-- Follows a path into a table and changes the table at its end. Tables that are missing on the
way are added. A list of tables stands for its last table. -/
def follow (dotted : Bool) : List String → (TomlTable → Option TomlTable) → TomlTable →
    Option TomlTable
  | [], change, t => change t
  | key :: path, change, t =>
    match t.find? key with
    | none =>
      (follow dotted path change ⟨if dotted then .dotted else .implied, []⟩).map fun inner =>
        t.set key inner.toToml
    | some (.table kind fields) =>
      if admits dotted kind then
        (follow dotted path change ⟨kind, fields⟩).map fun inner => t.set key inner.toToml
      else none
    | some (.array true items) =>
      match items.getLast? with
      | some (.table kind fields) =>
        (follow dotted path change ⟨kind, fields⟩).map fun inner =>
          t.set key (.array true (items.dropLast ++ [inner.toToml]))
      | _ => none
    | some _ => none

/-- Sets the last key of a dotted key, in a table that dotted keys made if there are dots. -/
def insertHere (key : List String) (value : Toml) (t : TomlTable) : Option TomlTable :=
  match key.getLast? with
  | none => none
  | some last =>
    let path := key.dropLast
    follow true path (fun inner =>
      if (inner.kind = .dotted) = (path = []) then none
      else if (inner.find? last).isSome then none
      else some (inner.set last value)) t

/-- Sets a dotted key in the table that a header stands for. -/
def insert (header key : List String) (value : Toml) (t : TomlTable) : Option TomlTable :=
  follow false header (insertHere key value) t

/-- Opens the table of a header. Only a table that longer headers made may be there already. -/
def openTable (header : List String) (t : TomlTable) : Option TomlTable :=
  match header.getLast? with
  | none => none
  | some last =>
    follow false header.dropLast (fun inner =>
      match inner.find? last with
      | none => some (inner.set last (.table .headed []))
      | some (.table .implied fields) => some (inner.set last (.table .headed fields))
      | some _ => none) t

/-- Adds a table to the list of a header. -/
def openItem (header : List String) (t : TomlTable) : Option TomlTable :=
  match header.getLast? with
  | none => none
  | some last =>
    follow false header.dropLast (fun inner =>
      match inner.find? last with
      | none => some (inner.set last (.array true [.table .headed []]))
      | some (.array true items) =>
        some (inner.set last (.array true (items ++ [.table .headed []])))
      | some _ => none) t

end StoryBuild.TomlTable
