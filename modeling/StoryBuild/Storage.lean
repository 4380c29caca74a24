import StoryBuild.Path.Basic
import StoryBuild.Text.Quoted
import StoryBuild.Text.Utf8

namespace StoryBuild

/-- Why an operating system refused to do something. -/
inductive SystemFault where
  | noEntry
  | denied
  | present
  | notDirectory
  | isDirectory
  | notEmpty
  | tooManyLinks
  | invalid
  | notText
  deriving DecidableEq

/-- The operating system's wording. -/
def SystemFault.message : SystemFault → String
  | noEntry => "No such file or directory (os error 2)"
  | denied => "Permission denied (os error 13)"
  | present => "File exists (os error 17)"
  | notDirectory => "Not a directory (os error 20)"
  | isDirectory => "Is a directory (os error 21)"
  | invalid => "Invalid argument (os error 22)"
  | notEmpty => "Directory not empty (os error 39)"
  | tooManyLinks => "Too many levels of symbolic links (os error 40)"
  | notText => "stream did not contain valid UTF-8"

/-- What was being done when the operating system refused. -/
inductive FileTask where
  | read (p : Path)
  | makeDir (p : Path)
  | createTemp (p : Path)
  | rename (source target : Path)
  | metadata (p : Path)
  | canonicalize (p : Path)
  | list (p : Path)
  | scratchDir (p : Path)
  | readOutput (p : Path)

/-- The wording for a task. -/
def FileTask.message : FileTask → String
  | read p => s!"reading file {quoted p.text}"
  | makeDir p => s!"creating dir {quoted p.text}"
  | createTemp p => s!"creating temp file {quoted p.text}"
  | rename p q => s!"renaming {quoted p.text} to {quoted q.text}"
  | metadata p => s!"reading metadata of {quoted p.text}"
  | canonicalize p => s!"canonicalizing {quoted p.text}"
  | list p => s!"reading dir {quoted p.text}"
  | scratchDir p => s!"creating scratch dir {quoted p.text}"
  | readOutput p => s!"reading compiler output {quoted p.text}"

/-- Why a file operation failed. -/
inductive IoError where
  | notText (fault : TextFault)
  | isDirectory (p : Path)
  | notFound (p : Path)
  | noMetadata (p : Path)
  | notListable (p : Path)
  | refused (p : Path)
  | system (task : FileTask) (fault : SystemFault)

/-- The outermost message of a failure. -/
def IoError.headline : IoError → String
  | notText fault => s!"Invalid UTF-8: {fault.message}"
  | isDirectory p => s!"Is a directory: {quoted p.text}"
  | notFound p => s!"File not found: {quoted p.text}"
  | noMetadata p => s!"metadata unavailable: {quoted p.text}"
  | notListable p => s!"Not a directory or not found: {quoted p.text}"
  | refused p => s!"write refused: {p.text}"
  | system task _ => task.message

/-- The message of a failure with its cause. -/
def IoError.message : IoError → String
  | system task fault => s!"{task.message}: {fault.message}"
  | e => e.headline

/-- A place that holds files. Writing replaces a whole file at once. Reading a modification time
can change the storage, since a storage may count the times it refuses one. No walk from a
directory down to others meets more directories than `dirBound` says. -/
class Storage (σ : Type) where
  readText : σ → Path → Except IoError String
  write : σ → Path → ByteArray → Except IoError Unit × σ
  isPresent : σ → Path → Bool
  isFile : σ → Path → Bool
  isDir : σ → Path → Bool
  modified : σ → Path → Except IoError Nat × σ
  canonicalize : σ → Path → Except IoError Path
  readDir : σ → Path → Except IoError (List Path)
  size : σ → Nat

end StoryBuild
