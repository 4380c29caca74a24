import StoryBuild.Graph.Discovery
import StoryBuild.Proofs.Linking
import StoryBuild.Proofs.PathOrder
import StoryBuild.Proofs.Scanning

namespace StoryBuild

/-- The includes in the bytes of a file. Bytes that are no text hold none. -/
def includesIn (content : ByteArray) : List String :=
  match decodeText content with
  | .ok text => includesOf text
  | .error _ => []

/-- What compiles have said about a file. -/
def SourceFile.report (f : SourceFile) : SourceFile :=
  { path := f.path
    compiled := f.compiled
    artifact := f.artifact
    errors := f.errors
    warnings := f.warnings
    todos := f.todos
    unhandled := f.unhandled }

namespace FileGraph

/-- The raw includes that are recorded for a path. -/
def rawAt (g : FileGraph) (p : Path) : Option (List String) :=
  (g.file? p).map SourceFile.rawIncludes

/-- The includes of a source as the disk has them. -/
def onDisk (g : FileGraph) (d : MemoryDisk) (p : Path) : Option (List String) :=
  if g.options.isSource p then (d.contents? (g.absolute p)).map includesIn else none

/-- Whether a graph knows what the disk has at a path. -/
def Fresh (g : FileGraph) (d : MemoryDisk) (p : Path) : Prop :=
  g.rawAt p = g.onDisk d p

/-- Whether the tracked paths are in order, and each is normal and a source. -/
structure Tidy (g : FileGraph) : Prop where
  order : g.paths.Pairwise fun p q => p.before q = true
  sources : ∀ p ∈ g.paths, p.IsNormalized ∧ g.options.isSource p = true

/-- Whether a change of the graph keeps what compiles have said, path by path. -/
def KeepsReports (g new : FileGraph) : Prop :=
  ∀ p f k, g.file? p = some f → new.file? p = some k → k.report = f.report

variable {g new : FileGraph} {d : MemoryDisk} {f : SourceFile} {p q : Path}

theorem tidy_empty (root : Path) (options : GraphOptions) : (empty root options).Tidy :=
  ⟨.nil, fun p hp => by cases hp⟩

theorem Tidy.inPathOrder (h : g.Tidy) : InPathOrder g.files :=
  List.pairwise_map.mp h.order

theorem Tidy.normal (h : g.Tidy) (hf : f ∈ g.files) : f.path.IsNormalized :=
  (h.sources _ (List.mem_map_of_mem hf)).1

theorem Tidy.congr (h : g.Tidy) (paths : new.paths = g.paths)
    (options : new.options = g.options) : new.Tidy := by
  constructor
  · rw [paths]
    exact h.order
  · rw [paths, options]
    exact h.sources

/-- What comes to be tracked has to be normal and a source. -/
theorem Tidy.of_mem (h : g.Tidy) (order : InPathOrder new.files)
    (options : new.options = g.options)
    (known : ∀ q ∈ new.paths, q ∈ g.paths ∨ q.IsNormalized ∧ g.options.isSource q = true) :
    new.Tidy := by
  refine ⟨List.pairwise_map.mpr order, fun q hq => ?_⟩
  rw [options]
  exact (known q hq).elim (h.sources q) id

/-- The paths of a graph by a view of its records that tells them. -/
theorem paths_of_mapFiles {view : SourceFile → SourceFile}
    (same : new.mapFiles view = g.mapFiles view) (path : ∀ f, (view f).path = f.path) :
    new.paths = g.paths := by
  have viewed (g : FileGraph) : g.paths = (g.mapFiles view).paths := by
    simp only [FileGraph.paths, mapFiles, List.map_map, Function.comp_def, path]
  rw [viewed new, same, ← viewed g]

theorem Tidy.of_report (h : g.Tidy) (same : new.mapFiles SourceFile.report =
    g.mapFiles SourceFile.report) : new.Tidy :=
  h.congr (paths_of_mapFiles same fun _ => rfl) (congrArg FileGraph.options same :)

theorem Tidy.of_bare (h : g.Tidy) (same : new.mapFiles SourceFile.bare =
    g.mapFiles SourceFile.bare) : new.Tidy :=
  h.congr (paths_of_mapFiles same fun _ => rfl) (congrArg FileGraph.options same :)

theorem file_found (found : g.file? p = some f) : f ∈ g.files ∧ f.path.parts = p.parts := by
  unfold file? at found
  have same := List.find?_some found
  exact ⟨List.mem_of_find?_eq_some found, Path.beq_iff.mp same⟩

/-- In a tidy graph a record is found by its path. -/
theorem Tidy.file_eq (h : g.Tidy) (hp : p.IsNormalized) :
    g.file? p = some f ↔ f ∈ g.files ∧ f.path = p := by
  constructor
  · intro found
    obtain ⟨hf, same⟩ := file_found found
    exact ⟨hf, (h.normal hf).ext hp same⟩
  · rintro ⟨hf, rfl⟩
    cases found : g.file? f.path with
    | none =>
      have other := List.find?_eq_none.mp found f hf
      simp [Path.beq_iff] at other
    | some k =>
      obtain ⟨hk, same⟩ := file_found found
      rw [h.inPathOrder.unique hk hf same]

theorem isTracked_iff : g.isTracked p = true ↔ ∃ f ∈ g.files, f.path.parts = p.parts := by
  simp only [isTracked, List.any_eq_true, Path.beq_iff]

/-- No record has the path of a file that is not tracked. -/
theorem not_tracked (untracked : g.isTracked p = false) : ∀ k ∈ g.files, k.path.parts ≠ p.parts :=
  fun k hk same => Bool.false_ne_true (untracked.symm.trans (isTracked_iff.mpr ⟨k, hk, same⟩))

theorem mem_insert {k : SourceFile} (untracked : g.isTracked f.path = false) :
    k ∈ (g.insert f).files ↔ k = f ∨ k ∈ g.files :=
  mem_insertByPath (not_tracked untracked) k

theorem isTracked_eq_isSome (g : FileGraph) (p : Path) : g.isTracked p = (g.rawAt p).isSome := by
  rw [rawAt, Option.isSome_map, file?, List.isSome_find?, isTracked]

/-- A tracked path of a tidy graph is among its paths as it is written. -/
theorem Tidy.isTracked_iff (h : g.Tidy) (hp : p.IsNormalized) :
    g.isTracked p = true ↔ p ∈ g.paths := by
  rw [FileGraph.isTracked_iff, FileGraph.paths, List.mem_map]
  constructor
  · rintro ⟨f, hf, same⟩
    exact ⟨f, hf, (h.normal hf).ext hp same⟩
  · rintro ⟨f, hf, rfl⟩
    exact ⟨f, hf, rfl⟩

theorem rawAt_of_bare (same : new.mapFiles SourceFile.bare = g.mapFiles SourceFile.bare)
    (p : Path) : new.rawAt p = g.rawAt p := by
  have path : ∀ f : SourceFile, f.bare.path = f.path := fun _ => rfl
  have bare (g : FileGraph) : g.rawAt p = (g.mapFiles SourceFile.bare).rawAt p := by
    rw [rawAt, rawAt, file_mapFiles g path, Option.map_map]
    rfl
  rw [bare new, same, ← bare g]

theorem KeepsReports.of_report (same : new.mapFiles SourceFile.report =
    g.mapFiles SourceFile.report) : g.KeepsReports new := by
  intro p f k before after
  have both := file_of_view same (fun _ => rfl) p
  rw [before, after] at both
  exact Option.some.inj both

/-- Linking keeps what compiles have said. -/
theorem report_relink (g : FileGraph) :
    g.relink.mapFiles SourceFile.report = g.mapFiles SourceFile.report := by
  rw [relink, rebuildOwnership, withParents, resolveAll]
  simp only [mapFiles_mapFiles]
  rfl

/-- What the disk has, by the bytes at the path. -/
theorem onDisk_of_contents {content : ByteArray} (source : g.options.isSource p = true)
    (found : d.contents? (g.absolute p) = some content) :
    g.onDisk d p = some (includesIn content) := by
  rw [onDisk, if_pos source, found]
  rfl

theorem onDisk_isSome (g : FileGraph) (d : MemoryDisk) (p : Path) :
    (g.onDisk d p).isSome = (g.options.isSource p && Storage.isFile d (g.absolute p)) := by
  unfold onDisk
  cases g.options.isSource p with
  | false => rfl
  | true => simp [Storage.isFile]

/-- A path that is not on the disk, or is no source, is fresh as long as it is not tracked. -/
theorem fresh_of_none (untracked : g.isTracked p = false) (gone : (g.onDisk d p).isSome = false) :
    g.Fresh d p := by
  rw [isTracked_eq_isSome, Option.isSome_eq_false_iff, Option.isNone_iff_eq_none] at untracked
  rw [Option.isSome_eq_false_iff, Option.isNone_iff_eq_none] at gone
  rw [Fresh, untracked, gone]

/-- Two tidy graphs that are fresh everywhere track the same. -/
theorem bare_of_fresh {g' : FileGraph} (h : g.Tidy) (h' : g'.Tidy) (root : g'.root = g.root)
    (options : g'.options = g.options) (fresh : ∀ p : Path, p.IsNormalized → g.Fresh d p)
    (fresh' : ∀ p : Path, p.IsNormalized → g'.Fresh d p) :
    g.mapFiles SourceFile.bare = g'.mapFiles SourceFile.bare := by
  have raw (p : Path) (hp : p.IsNormalized) : g.rawAt p = g'.rawAt p := by
    rw [fresh p hp, fresh' p hp, onDisk, onDisk, absolute, absolute, root, options]
  have within {a b : FileGraph} (ha : a.Tidy) (hb : b.Tidy)
      (raw : ∀ p : Path, p.IsNormalized → a.rawAt p = b.rawAt p) :
      ∀ f ∈ a.files.map SourceFile.bare, f ∈ b.files.map SourceFile.bare := by
    intro f hf
    obtain ⟨k, hk, rfl⟩ := List.mem_map.mp hf
    have normal := ha.normal hk
    have same := raw k.path normal
    rw [rawAt, (ha.file_eq normal).mpr ⟨hk, rfl⟩, Option.map_some] at same
    obtain ⟨j, found, includes⟩ := Option.map_eq_some_iff.mp same.symm
    obtain ⟨hj, path⟩ := (hb.file_eq normal).mp found
    refine List.mem_map.mpr ⟨j, hj, ?_⟩
    rw [SourceFile.bare, SourceFile.bare, path, includes]
  -- Both lists are in path order, so it is enough that each holds what the other holds.
  have files : g.files.map SourceFile.bare = g'.files.map SourceFile.bare := by
    refine InPathOrder.ext (h.inPathOrder.map fun _ => rfl) (h'.inPathOrder.map fun _ => rfl) ?_
    exact fun f => ⟨within h h' raw f, within h' h (fun p hp => (raw p hp).symm) f⟩
  rw [mapFiles, mapFiles, files, root, options]

end FileGraph

end StoryBuild
