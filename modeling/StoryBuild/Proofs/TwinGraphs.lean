import StoryBuild.Compiler.Script
import StoryBuild.Graph.Check
import StoryBuild.Proofs.IncludeEdges
import StoryBuild.Proofs.Retiming
import StoryBuild.Proofs.Staleness
import StoryBuild.Proofs.TwinDisks

namespace StoryBuild

open MemoryDisk (Firm)

/-- A disk in memory with a compiler, on which some writes of one path are to be refused: a list
tells for each of them in turn. -/
structure Trial (κ : Type) where
  disk : MemoryDisk
  compiler : κ
  guarded : Path
  refusals : List Bool := []

namespace Trial

variable {κ : Type}

/-- Writes a file unless the write is to be refused. -/
def write (s : Trial κ) (p : Path) (content : ByteArray) : Except IoError Unit × Trial κ :=
  if p == s.guarded && s.refusals.headD false then
    (.error (.refused p), { s with refusals := s.refusals.tail })
  else
    ((s.disk.write p content).1,
      { s with
        disk := (s.disk.write p content).2
        refusals := if p == s.guarded then s.refusals.tail else s.refusals })

instance : Storage (Trial κ) where
  readText s := s.disk.readText
  write := write
  isPresent s := Storage.isPresent s.disk
  isFile s := Storage.isFile s.disk
  isDir s := Storage.isDir s.disk
  modified s p := ((s.disk.modified p).1, { s with disk := (s.disk.modified p).2 })
  canonicalize s := Storage.canonicalize s.disk
  readDir s := s.disk.readDir
  size s := Storage.size s.disk

/-- Two places of work with twin disks and the same compiler, in which the file at a place is
guarded. -/
structure Twins (times : Nat → Nat) (root place : List Part) (s t : Trial κ) : Prop where
  disks : s.disk.Twins times root place t.disk
  compiler : t.compiler = s.compiler
  guarded₁ : s.guarded.parts = place
  guarded₂ : t.guarded.parts = place

end Trial

namespace FileGraph

variable {κ : Type} {g g' : FileGraph} {s t : Trial κ} {times : Nat → Nat} {p : Path}
  {place : List Part}

/-- Whether a graph has nothing to do with a place: no source stands there, no artifact there or
below, and no include names it. -/
structure KeepsOff (g : FileGraph) (place : List Part) : Prop where
  sources : ∀ f ∈ g.files, (g.absolute f.path).parts ≠ place
  artifacts : ∀ f ∈ g.files, ¬ place <+: (g.absolute (g.artifactPath f.path)).parts
  includes : ∀ f ∈ g.files, ∀ raw ∈ f.rawIncludes, ∀ target,
    f.path.dirOf.resolveInclude raw = some target → (g.absolute target).parts ≠ place

/-- Whether sources and artifacts keep off a place. -/
def PathsKeepOff (g : FileGraph) (place : List Part) : Prop :=
  ∀ p ∈ g.paths, (g.absolute p).parts ≠ place ∧
    ¬ place <+: (g.absolute (g.artifactPath p)).parts

theorem PathsKeepOff.congr {new : FileGraph} (off : g.PathsKeepOff place)
    (paths : g.paths = new.paths) (same : new.place = g.place) : new.PathsKeepOff place := by
  intro p hp
  rw [absolute_of_place same, artifact_of_place same]
  exact off p (paths ▸ hp)

theorem KeepsOff.paths (off : g.KeepsOff place) : g.PathsKeepOff place := by
  intro p hp
  obtain ⟨f, hf, rfl⟩ := List.mem_map.mp hp
  exact ⟨off.sources f hf, off.artifacts f hf⟩

/-- It goes by the links. -/
theorem KeepsOff.of_linkage (off : g.KeepsOff place)
    (links : g'.mapFiles SourceFile.linkage = g.mapFiles SourceFile.linkage) :
    g'.KeepsOff place := by
  have same_place : g'.place = g.place := (congrArg FileGraph.place links :)
  constructor
  all_goals
    intro f hf
    obtain ⟨k, hk, same⟩ := mem_of_view links hf
    have path : k.path = f.path := (congrArg SourceFile.path same :)
  · rw [absolute_of_place same_place, ← path]
    exact off.sources k hk
  · rw [artifact_of_place same_place, ← path]
    exact off.artifacts k hk
  · have raws : k.rawIncludes = f.rawIncludes := (congrArg SourceFile.rawIncludes same :)
    intro raw hraw target named
    rw [absolute_of_place same_place]
    rw [← path] at named
    exact off.includes k hk raw (raws ▸ hraw) target named

/-- Two graphs of twin disks. -/
structure Alike (times : Nat → Nat) (place : List Part) (g g' : FileGraph) (s t : Trial κ) :
    Prop where
  graphs : g' = g.retimed times
  sites : s.Twins times g.root.parts place t
  recorded : ∀ f ∈ g.files, ∀ time, f.modified = some time → time ≤ s.disk.clock
  rooted : Firm place s.disk g.root.parts
  firm : ∀ f ∈ g.files, Firm place s.disk (g.absolute f.path).parts

/-- Two readings of a time, with the same result for the same graphs. -/
inductive SameTime (times : Nat → Nat) (place : List Part) (g g' : FileGraph) (p : Path) :
    Except IoError Nat × Trial κ → Except IoError Nat × Trial κ → Prop where
  | known {s t : Trial κ} {time : Nat} (alike : Alike times place g g' s t)
      (past : time ≤ s.disk.clock) (there : standsAt s.disk.entries p.parts ≠ none) :
      SameTime times place g g' p (.ok time, s) (.ok (times time), t)
  | unknown {s t : Trial κ} (cause cause' : IoError) (alike : Alike times place g g' s t) :
      SameTime times place g g' p (.error cause, s) (.error cause', t)

/-- Whether every missing include stands in the text of its file. -/
def NamesMissing (g : FileGraph) : Prop :=
  ∀ f ∈ g.files, ∀ raw, Issue.missing raw ∈ f.issues → raw ∈ f.rawIncludes

theorem NamesMissing.of_linkage (names : g.NamesMissing)
    (links : g'.mapFiles SourceFile.linkage = g.mapFiles SourceFile.linkage) :
    g'.NamesMissing := by
  intro f hf raw missing
  obtain ⟨k, hk, same⟩ := mem_of_view links hf
  have raws : k.rawIncludes = f.rawIncludes := (congrArg SourceFile.rawIncludes same :)
  have issues : k.issues = f.issues := (congrArg SourceFile.issues same :)
  exact raws ▸ names k hk raw (issues ▸ missing)

namespace Alike

variable (h : Alike times place g g' s t)

include h

theorem same_place : g'.place = g.place := by
  rw [h.graphs]
  rfl

theorem absolute_eq (p : Path) : g'.absolute p = g.absolute p :=
  absolute_of_place h.same_place p

theorem isTracked_eq (p : Path) : g'.isTracked p = g.isTracked p := by
  rw [h.graphs, retimed_isTracked]

theorem paths_eq : g'.paths = g.paths := by
  rw [h.graphs, retimed_paths]

theorem isFile (other : p.parts ≠ place) : Storage.isFile t p = Storage.isFile s p :=
  h.sites.disks.isFile other

/-- The storages may have been looked at. -/
theorem looked {s' t' : Trial κ} (sites : s'.Twins times g.root.parts place t')
    (entries : s'.disk.entries = s.disk.entries) (clock : s'.disk.clock = s.disk.clock) :
    Alike times place g g' s' t' := by
  refine ⟨h.graphs, sites, ?_, ?_, ?_⟩
  · rw [clock]
    exact h.recorded
  · rw [Firm, entries]
    exact h.rooted
  · intro f hf
    rw [Firm, entries]
    exact h.firm f hf

/-- A file has a time on both disks or on none, and it is no time to come. -/
theorem modified (other : p.parts ≠ place) :
    SameTime times place g g' p (Storage.modified s p) (Storage.modified t p) := by
  obtain ⟨same, disks⟩ := h.sites.disks.modified other
  obtain ⟨entries, clock, -⟩ := MemoryDisk.Twins.modified_rest s.disk p
  have looked : Alike times place g g' (Storage.modified s p).2 (Storage.modified t p).2 :=
    h.looked ⟨disks, h.sites.compiler, h.sites.guarded₁, h.sites.guarded₂⟩ entries clock
  have past : ∀ time, (s.disk.modified p).1.toOption = some time →
      time ≤ s.disk.clock ∧ standsAt s.disk.entries p.parts ≠ none :=
    fun _ => h.sites.disks.modified_past
  change SameTime times place g g' p ((s.disk.modified p).1, (Storage.modified s p).2)
    ((t.disk.modified p).1, (Storage.modified t p).2)
  generalize (s.disk.modified p).1 = r, (t.disk.modified p).1 = r' at same past
  cases r with
  | error cause =>
    cases r' with
    | error cause' => exact .unknown cause cause' looked
    | ok => cases same
  | ok time =>
    cases r' with
    | error => cases same
    | ok time' =>
      obtain rfl := Option.some.inj same
      obtain ⟨old, there⟩ := past _ rfl
      exact .known looked (clock.symm ▸ old) (entries.symm ▸ there)

theorem modified_left (here_ : p.parts = place) :
    Alike times place g g' (Storage.modified s p).2 t := by
  obtain ⟨entries, clock, -⟩ := MemoryDisk.Twins.modified_rest s.disk p
  exact h.looked ⟨h.sites.disks.modified_left here_, h.sites.compiler, h.sites.guarded₁,
    h.sites.guarded₂⟩ entries clock

theorem modified_right (here_ : p.parts = place) :
    Alike times place g g' s (Storage.modified t p).2 :=
  h.looked ⟨h.sites.disks.modified_right here_, h.sites.compiler, h.sites.guarded₁,
    h.sites.guarded₂⟩ rfl rfl

/-- A second try does no harm. -/
theorem modifiedTwice (other : p.parts ≠ place) :
    SameTime times place g g' p (modifiedTwice s p) (modifiedTwice t p) := by
  have first := h.modified other
  unfold FileGraph.modifiedTwice
  generalize Storage.modified s p = r, Storage.modified t p = r' at first
  cases first with
  | known alike past there => exact .known alike past there
  | unknown _ _ alike => exact alike.modified other

theorem modifiedTwice_left (here_ : p.parts = place) :
    Alike times place g g' (FileGraph.modifiedTwice s p).2 t := by
  have first := h.modified_left here_
  unfold FileGraph.modifiedTwice
  generalize Storage.modified s p = r at first
  obtain ⟨_ | _, s⟩ := r
  · exact first.modified_left here_
  · exact first

theorem modifiedTwice_right (here_ : p.parts = place) :
    Alike times place g g' s (FileGraph.modifiedTwice t p).2 := by
  have first := h.modified_right here_
  unfold FileGraph.modifiedTwice
  generalize Storage.modified t p = r at first
  obtain ⟨_ | _, t⟩ := r
  · exact first.modified_right here_
  · exact first

/-- The records may change as long as paths and times stay. -/
theorem regraph {new new' : FileGraph} (graphs : new' = new.retimed times)
    (same : new.mapFiles SourceFile.dated = g.mapFiles SourceFile.dated) :
    Alike times place new new' s t := by
  have root : new.root = g.root := (congrArg FileGraph.root same :)
  refine ⟨graphs, root ▸ h.sites, fun f hf time there => ?_, root ▸ h.rooted, fun f hf => ?_⟩
  all_goals obtain ⟨k, hk, alike⟩ := mem_of_view same hf
  · exact h.recorded k hk time ((congrArg SourceFile.modified alike :).trans there)
  · have path : k.path = f.path := (congrArg SourceFile.path alike :)
    rw [absolute, root, ← path]
    exact h.firm k hk

/-- One record may change if its path stays and its time does not go beyond the clock. -/
theorem update (p : Path) {change change' : SourceFile → SourceFile}
    (same : ∀ f, change' (f.retimed times) = (change f).retimed times)
    (path : ∀ f, (change f).path = f.path)
    (past : ∀ f time, (change f).modified = some time →
      f.modified = some time ∨ time ≤ s.disk.clock) :
    Alike times place (g.update p change) (g'.update p change') s t := by
  refine ⟨by rw [h.graphs, retimed_update g times p same], h.sites, fun f hf time there => ?_,
    h.rooted, fun f hf => ?_⟩
  all_goals obtain ⟨k, hk, rfl⟩ := List.mem_map.mp hf
  · split at there
    next => exact (past k time there).elim (h.recorded k hk time) id
    next => exact h.recorded k hk time there
  · have kept : (if (k.path == p) = true then change k else k).path = k.path := by
      split
      next => exact path k
      next => rfl
    rw [kept]
    exact h.firm k hk

end Alike

end FileGraph

end StoryBuild
