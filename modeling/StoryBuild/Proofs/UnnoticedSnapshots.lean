import StoryBuild.Proofs.DeskFacts
import StoryBuild.Proofs.TwinCalls

namespace StoryBuild

open MemoryDisk (Firm)

/-- A change of a disk from outside. -/
inductive DiskEdit where
  | write (p : Path) (content : ByteArray)
  | touch (p : Path)
  | delete (p : Path)
  /-- Readings of a time are to fail. -/
  | hideTime (p : Path) (times : Nat)
  /-- Writes are to be refused. -/
  | refuse (p : Path) (times : Nat)

namespace DiskEdit

/-- The disk after an edit. -/
def apply (d : MemoryDisk) : DiskEdit → MemoryDisk
  | write p content => d.addFile p content
  | touch p => d.touch p
  | delete p => d.remove p
  | hideTime p times => d.failMetadata p times
  | refuse p times => d.failWrite p times

/-- Whether an edit lets a path be that of a file: nothing is written below it, and nothing above it
is deleted. -/
def Spares (place : List Part) : DiskEdit → Prop
  | write p _ => place <+: p.parts → p.parts = place
  | delete p => ¬ LiesOver place p.parts
  | _ => True

section Apply

variable {root place a : List Part} {d : MemoryDisk}

end Apply

/-- An empty disk after some edits. -/
def disk (edits : List DiskEdit) : MemoryDisk :=
  edits.foldl apply .empty

end DiskEdit

/-- A disk that was set up by some edits, with a compiler. -/
def Trial.start {κ : Type} (edits : List DiskEdit) (c : κ) (guarded : Path) : Trial κ :=
  { disk := DiskEdit.disk edits, compiler := c, guarded }

/-- What is answered to a call. -/
inductive Reply where
  | nothing
  | job (r : Except RequestError Nat)
  | jobs (r : Except RequestError (List Nat))
  | ids (started : List Nat)
  | look (step : PollStep)
  | batch (summary : Summary)
  | mode (answer : ModeAnswer)
  | masters (affected : List Path)
  | dropped (count : Nat)
  | rebuilt (r : Except RequestError Unit)
  | checked (r : Except RequestError Bool)

/-- What happens to an engine over a disk in memory with a compiler: it is called, the disk is
changed from outside, or another compiler takes over. -/
inductive Occurrence (κ : Type) where
  | call (x : Act (Trial κ))
  | edit (x : DiskEdit)
  | compiler (c : κ)

/-- Whether a happening loads no snapshot, leaves the storage to the engine, and gives workers no
look at the disk. -/
def Act.IsPlain {κ : Type} : Act (Trial κ) → Prop
  | .loadAndRestore => False
  | .siteChanged _ => False
  | .workerTurn state => state.IsClosed
  | _ => True

/-- Whether an occurrence has nothing to do with the file at a place. -/
def Occurrence.Spares {κ : Type} (place : List Part) : Occurrence κ → Prop
  | .call x => x.IsPlain
  | .edit x => x.Spares place
  | .compiler _ => True

namespace Engine

variable {κ : Type} [Compiler κ] {p : Path} {a b : Engine (Trial κ)}

/-- The answer to a call. -/
def reply {σ : Type} [Workshop σ] (e : Engine σ) : Act σ → Reply
  | .enqueue master immediate now => .job (e.enqueueAt master immediate now).1
  | .drainQueue now => .ids (e.drain now).1
  | .poll now => .look (e.pollAt now).1
  | .queueDrained now => .batch (e.closeBatch now).1
  | .tryRestricted => .mode e.tryRestricted.1
  | .sourceChanged p => .masters (e.sourceChanged p).1
  | .compileAll force => .jobs (e.compileAll force).1
  | .compileFile p immediate => .jobs (e.compileFile p immediate).1
  | .cancelAll => .dropped e.cancelAll.1
  | .rebuildGraph => .rebuilt e.rebuildGraph.1
  | .rebuildIfRequired => .checked e.rebuildIfRequired.1
  | .restore s => .ids (e.restore s).1
  | .loadAndRestore => .jobs e.loadAndRestore.1
  | _ => .nothing

/-- The answer to an occurrence, and the engine after it. -/
def befall (e : Engine (Trial κ)) : Occurrence κ → Reply × Engine (Trial κ)
  | .call x => (e.reply x, e.act x)
  | .edit x => (.nothing, { e with site := { e.site with disk := x.apply e.site.disk } })
  | .compiler c => (.nothing, { e with site := e.site.withCompiler c })

/-- The answers in a run, and the engine after it. -/
def through (e : Engine (Trial κ)) : List (Occurrence κ) → List Reply × Engine (Trial κ)
  | [] => ([], e)
  | x :: rest =>
    let (reply, e) := e.befall x
    let (replies, e) := e.through rest
    (reply :: replies, e)

/-- Whether the graph keeps off a place between any two occurrences of a run. -/
def KeepsOff (place : List Part) : Engine (Trial κ) → List (Occurrence κ) → Prop
  | e, [] => e.graph.KeepsOff place
  | e, x :: rest => e.graph.KeepsOff place ∧ KeepsOff place (e.befall x).2 rest

theorem KeepsOff.now {place : List Part} {e : Engine (Trial κ)} {l : List (Occurrence κ)}
    (off : e.KeepsOff place l) : e.graph.KeepsOff place := by
  cases l with
  | nil => exact off
  | cons => exact off.1

/-- An engine on a project that was just read, without a snapshot. -/
def plain (reading : FileGraph.Reading (Trial κ)) (options : EngineOptions) (dawn : Nat) :
    Engine (Trial κ) :=
  fresh reading.graph { options with statePath := none } reading.storage dawn

/-- The same engine with a snapshot, some writes of which are refused. -/
def keeping (p : Path) (refusals : List Bool) (reading : FileGraph.Reading (Trial κ))
    (options : EngineOptions) (dawn : Nat) : Engine (Trial κ) :=
  fresh reading.graph { options with statePath := some p } { reading.storage with refusals } dawn

section Start

variable {root : Path} {graphOptions : GraphOptions} {edits : List DiskEdit} {c : κ}
  {reading : FileGraph.Reading (Trial κ)} (absolute : p.isAbsolute = true)
  (rooted : root.isAbsolute = true) (free : Storage.isDir (DiskEdit.disk edits) p = false)
  (built : FileGraph.build root graphOptions (Trial.start edits c p) = .ok reading)

include absolute rooted free built

end Start

end Engine

instance (g : FileGraph) (place : List Part) : Decidable (g.KeepsOff place) :=
  decidable_of_iff
    ((∀ f ∈ g.files, (g.absolute f.path).parts ≠ place) ∧
      (∀ f ∈ g.files, ¬ place <+: (g.absolute (g.artifactPath f.path)).parts) ∧
      ∀ f ∈ g.files, ∀ raw ∈ f.rawIncludes, ∀ target ∈ f.path.dirOf.resolveInclude raw,
        (g.absolute target).parts ≠ place)
    ⟨fun ⟨sources, artifacts, includes⟩ => ⟨sources, artifacts, includes⟩,
      fun h => ⟨h.sources, h.artifacts, h.includes⟩⟩

namespace Engine

instance decidableKeepsOff {κ : Type} [Compiler κ] (place : List Part) :
    (e : Engine (Trial κ)) → (l : List (Occurrence κ)) → Decidable (e.KeepsOff place l)
  | e, [] => inferInstanceAs (Decidable (e.graph.KeepsOff place))
  | e, x :: rest =>
    have := decidableKeepsOff place (e.befall x).2 rest
    inferInstanceAs (Decidable (e.graph.KeepsOff place ∧ KeepsOff place (e.befall x).2 rest))

instance : Compiler Copyist where
  compile c r := (.succeed [] r.source.toUTF8, c)
  proceed c _ progress := (progress, c)
  compile_closed _ _ := trivial
  proceed_closed _ _ _ closed := closed

end Engine

end StoryBuild
