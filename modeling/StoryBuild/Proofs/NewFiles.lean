import StoryBuild.Proofs.Staleness
import StoryBuild.Proofs.UpToDate

namespace StoryBuild

/-- A record is made of what it holds itself and of its links. -/
theorem SourceFile.ext_own {f k : SourceFile} (own : f.own = k.own)
    (links : f.linkage = k.linkage) : f = k := by
  cases f
  cases k
  simp_all [SourceFile.own, SourceFile.linkage]

namespace FileGraph

section Reading

variable {σ : Type} [Storage σ] {g new : FileGraph} {s : σ} {p : Path}

/-- A record after its file is read again. -/
def readAgain (g : FileGraph) (s : σ) (f : SourceFile) : SourceFile :=
  { f with
    rawIncludes := (g.readIncludes s f.path).toOption.getD []
    modified := Storage.time? s (g.absolute f.path) <|> f.modified }

theorem readAgain_path (g : FileGraph) (s : σ) (f : SourceFile) :
    (g.readAgain s f).path = f.path := rfl

/-- Reading a file twice is reading it once. -/
theorem readAgain_readAgain (g : FileGraph) (s : σ) (f : SourceFile) :
    g.readAgain s (g.readAgain s f) = g.readAgain s f := by
  unfold readAgain
  dsimp only
  cases Storage.time? s (g.absolute f.path) <;> rfl

theorem reparse_eq (order : InPathOrder g.files) (s : σ) (tracked : p ∈ g.paths) :
    (g.reparse s p).1 = g.mapFiles fun f => if f.path == p then g.readAgain s f else f := by
  obtain ⟨own, known, rfl⟩ := List.mem_map.mp tracked
  unfold reparse update
  refine mapFiles_congr fun f hf => ?_
  split
  next same => rw [order.unique hf known (Path.beq_iff.mp same)]; rfl
  next => rfl

/-- Reading some tracked files again changes their records, each by itself. -/
theorem reparseAll_eq (steady : Storage.Steady s) (order : InPathOrder g.files) {l : List Path}
    (tracked : ∀ p ∈ l, p ∈ g.paths) :
    (g.reparseAll s l).1 = g.mapFiles fun f =>
      if l.any (f.path == ·) then g.readAgain s f else f := by
  induction l generalizing g with
  | nil => simp [reparseAll, mapFiles]
  | cons p rest ih =>
    have paths : (g.reparse s p).1.paths = g.paths := g.reparse_paths s p
    have unfolded : g.reparseAll s (p :: rest) = (g.reparse s p).1.reparseAll s rest := by
      have same : g.reparse s p = ((g.reparse s p).1, s) := Prod.ext rfl (steady _)
      rw [reparseAll, List.foldl_cons, same]
      rfl
    have again : (g.reparse s p).1.readAgain s = g.readAgain s := rfl
    rw [unfolded, ih (inPathOrder_congr order paths) fun q hq => paths ▸ tracked q (by simp [hq]),
      again, reparse_eq order s (tracked p (by simp)), mapFiles_mapFiles]
    congr 1
    funext f
    by_cases first : (f.path == p) = true
    · simp [first, readAgain_readAgain]
    · simp [first]

/-- A rebuild reads the record of every file again, once all files are found. -/
theorem rebuild_eq (steady : Storage.Steady s) (order : InPathOrder new.files) {found : Found}
    (discovered : (g.prune s).discover s = .ok (new, s, found)) :
    (g.rebuild s).2.graph = (new.mapFiles (new.readAgain s)).relink := by
  obtain ⟨-, rebuilt, -⟩ := rebuild_of_discover discovered
  rw [rebuilt, reparseAll_eq steady order fun _ => id]
  refine congrArg relink (mapFiles_congr fun f hf => if_pos ?_)
  exact List.any_eq_true.mpr ⟨f.path, List.mem_map_of_mem hf, by simp [Path.beq_iff]⟩

/-- What a discovery knows of a file that was not tracked. -/
theorem discover_untracked (steady : Storage.Steady s) (untracked : g.isTracked p = false)
    {s' : σ} {found : Found} (discovered : (g.prune s).discover s = .ok (new, s', found))
    (tracked : p ∈ new.paths) :
    ∃ time, Storage.time? s (g.absolute p) = some time ∧
      { path := p, modified := some time, artifact := g.artifactOnDisk s p } ∈ new.files := by
  obtain ⟨f, hf, rfl⟩ := List.mem_map.mp tracked
  obtain ⟨paths, -, state⟩ := discover_ok discovered
  have origin := importAll_origin (P := (· = s)) (fun _ q same => same ▸ steady q) paths rfl {}
    (g := g.prune s) f (by rw [state]; exact hf)
  rcases origin with old | ⟨-, s₁, s₂, time, rfl, read, new_record⟩
  · exact absurd rfl (not_tracked untracked f (List.mem_filter.mp old).1)
  · obtain ⟨same, time_read⟩ := modifiedTwice_steady steady (g.absolute f.path)
    have read_here : modifiedTwice s₁ (g.absolute f.path) = (.ok time, s₂) := read
    rw [read_here] at same time_read
    obtain rfl : s₂ = s₁ := same
    exact ⟨time, time_read.symm, new_record ▸ hf⟩

/-- What a rebuild leaves of a file that it has discovered, apart from its links. -/
theorem rebuild_new_own (steady : Storage.Steady s) (order : InPathOrder new.files)
    (untracked : g.isTracked p = false) {found : Found}
    (discovered : (g.prune s).discover s = .ok (new, s, found)) (tracked : p ∈ new.paths) :
    ((g.rebuild s).2.graph.file? p).map SourceFile.own =
      some { (g.readAgain s { path := p }).own with artifact := g.artifactOnDisk s p } := by
  obtain ⟨time, read, known⟩ := discover_untracked steady untracked discovered tracked
  have absolute : new.absolute p = g.absolute p :=
    absolute_of_place (discover_place discovered) p
  rw [rebuild_eq steady order discovered, file_of_view (own_relink _) fun _ => rfl,
    file_mapFiles new (readAgain_path new s), file_of_mem order known]
  simp [readAgain, readIncludes, SourceFile.own, absolute, read]

/-- What a refresh leaves of a file that was not tracked, apart from its links. -/
theorem refresh_new_own (order : InPathOrder g.files) (untracked : g.isTracked p = false)
    (file : Storage.isFile s (g.absolute p) = true) (source : g.options.isSource p = true) :
    ((g.refresh s p).2.graph.file? p).map SourceFile.own =
      some (g.readAgain s { path := p }).own := by
  have refreshed : (g.refresh s p).2.graph = ((g.insert { path := p }).reparse s p).1.relink := by
    simp [refresh, reread, file, untracked, source]
  have inserted : InPathOrder (g.insert { path := p }).files := insert_inPathOrder order untracked
  have known : { path := p } ∈ (g.insert { path := p }).files :=
    (mem_insert (f := { path := p }) untracked).mpr (.inl rfl)
  rw [refreshed, file_of_view (own_relink _) fun _ => rfl,
    reparse_eq inserted s (List.mem_map_of_mem known), file_mapFiles,
    file_of_mem inserted known]
  · simp [Path.beq_iff]
    rfl
  · intro f
    split <;> rfl

end Reading

end FileGraph

namespace Project

variable {project : Project} {p : Path}

/-- Whether a graph knows the files on its disk and what they include. -/
structure InSync (project : Project) : Prop where
  sound : project.Sound
  fresh : ∀ p : Path, p.IsNormalized → project.graph.Fresh project.disk p

/-- Once every changed path is caught up with, a project is in sync. -/
theorem run_inSync {root : Path} {options : GraphOptions} {setup : List Edit}
    {start : FileGraph.Reading MemoryDisk} (laid_out : MemoryDisk.empty.AllowsAll root setup)
    (built : FileGraph.build root options (MemoryDisk.empty.edits root setup) = .ok start)
    {steps : List Step} (allowed : (ofReading start).AllowsAll steps) (caught : CatchUp steps) :
    ((ofReading start).run steps).InSync := by
  obtain ⟨sound, -, renews⟩ := built_sound laid_out built
  exact ⟨(run_sound sound allowed).1, fun p normal =>
    run_fresh sound allowed caught normal (.inl (renews.fresh p normal trivial))⟩

/-- Projects in sync with one disk are linked alike. -/
theorem InSync.linkage_eq {other : Project} (h : project.InSync) (h' : other.InSync)
    (disk : other.disk = project.disk) (root : other.graph.root = project.graph.root)
    (options : other.graph.options = project.graph.options) :
    other.graph.mapFiles SourceFile.linkage = project.graph.mapFiles SourceFile.linkage := by
  have bare := FileGraph.bare_of_fresh h.sound.tidy h'.sound.tidy root options h.fresh
    fun q normal => disk ▸ h'.fresh q normal
  rw [h'.sound.linked, h.sound.linked, bare]

/-- After a file is written in a project in sync, a refresh of it and a rebuild link alike. -/
theorem InSync.written_linkage (h : project.InSync) {content : ByteArray}
    (allowed : project.Allows (.edit (.write p content))) :
    let written := project.step (.edit (.write p content))
    (written.step (.refresh p)).graph.mapFiles SourceFile.linkage =
      (written.step .rebuild).graph.mapFiles SourceFile.linkage := by
  intro written
  have normal : p.IsNormalized := allowed.1
  have edited := edit_advances h.sound allowed
  have refreshed := refresh_advances edited.sound normal
  have rebuilt := rebuild_advances edited.sound
  have refreshed_sync : (written.step (.refresh p)).InSync := by
    refine ⟨refreshed.sound, fun q hq => ?_⟩
    by_cases same : q = p
    · exact refreshed.fresh q hq same
    · refine refreshed.kept q hq nofun (edited.kept q hq ?_ (h.fresh q hq))
      rintro e ⟨⟩ rfl
      exact same rfl
  have rebuilt_sync : (written.step .rebuild).InSync :=
    ⟨rebuilt.sound, fun q hq => rebuilt.fresh q hq trivial⟩
  exact rebuilt_sync.linkage_eq refreshed_sync
    ((refreshed.disk nofun).trans (rebuilt.disk nofun).symm)
    (refreshed.root.trans rebuilt.root.symm) (refreshed.options.trans rebuilt.options.symm)

/-- When a new source is written in a project in sync, a refresh of it and a rebuild that discovers
it leave the same record in every field but the artifact. The rebuild puts down the artifact that is
on the disk, if there is one, and the refresh puts down none. -/
theorem refreshed_lacks_artifact (h : project.InSync) {content : ByteArray}
    (untracked : project.graph.isTracked p = false)
    (source : project.graph.options.isSource p = true)
    (allowed : project.Allows (.edit (.write p content))) :
    let written := project.step (.edit (.write p content))
    let artifact := project.graph.artifactPath p
    ∃ f, (written.step .rebuild).graph.file? p = some f ∧
      (written.step (.refresh p)).graph.file? p = some { f with artifact := none } ∧
      f.artifact =
        if Storage.isFile written.disk (project.graph.absolute artifact) then some artifact
        else none := by
  intro written artifact
  have edited := edit_advances h.sound allowed
  have steady : Storage.Steady written.disk :=
    fun q => MemoryDisk.modified_disk edited.sound.faultless q
  have file : Storage.isFile written.disk (written.graph.absolute p) = true := by
    change Storage.isFile (project.disk.addFile _ content) (project.graph.absolute p) = true
    rw [MemoryDisk.isFile_eq, MemoryDisk.contentAt_addFile]
    exact congrArg Option.isSome (if_pos rfl)
  obtain ⟨new, found, discovered, -, -, tidy, tracked, -⟩ := FileGraph.discover_spec
    edited.sound.tidy edited.sound.order edited.sound.root edited.sound.faultless
  have rebuilt := FileGraph.rebuild_new_own steady tidy.inPathOrder untracked discovered
    ((tracked p).mpr ⟨allowed.1, file, source⟩)
  have refreshed := FileGraph.refresh_new_own edited.sound.tidy.inPathOrder untracked file source
  obtain ⟨f, found_f, own_f⟩ : ∃ f, (written.step .rebuild).graph.file? p = some f ∧ _ :=
    Option.map_eq_some_iff.mp rebuilt
  obtain ⟨k, found_k, own_k⟩ : ∃ k, (written.step (.refresh p)).graph.file? p = some k ∧ _ :=
    Option.map_eq_some_iff.mp refreshed
  have links : ((written.step (.refresh p)).graph.file? p).map SourceFile.linkage =
      ((written.step .rebuild).graph.file? p).map SourceFile.linkage :=
    FileGraph.file_of_view (h.written_linkage allowed) (fun _ => rfl) p
  rw [found_f, found_k, Option.map_some, Option.map_some, Option.some.injEq] at links
  refine ⟨f, found_f, found_k.trans (congrArg some (SourceFile.ext_own ?_ links)),
    (congrArg SourceFile.artifact own_f :)⟩
  have without : SourceFile.own { f with artifact := none } = { f.own with artifact := none } := rfl
  rw [without, own_f, own_k]
  rfl

/-- The disk of a story with one file. -/
def oneFileDisk : MemoryDisk :=
  MemoryDisk.empty.edits (.ofText "/story") [.write (.ofNames ["main.ink"]) "Main".toUTF8]

/-- The story, with something put where the artifact of a later file will go. -/
def awaitingLater : Project :=
  let graph := FileGraph.empty (.ofText "/story") { extension := "ink" }
  (ofReading (graph.rebuild oneFileDisk).2).run
    [.edit (.write (.ofNames ["later.json"]) "{}".toUTF8), .refresh (.ofNames ["later.json"])]

theorem awaitingLater_inSync : awaitingLater.InSync := by
  have main : (Path.ofNames ["main.ink"]).IsNormalized :=
    Path.isNormalized_ofName ⟨by decide +kernel, by decide +kernel⟩
  have artifact : (Path.ofNames ["later.json"]).IsNormalized :=
    Path.isNormalized_ofName ⟨by decide +kernel, by decide +kernel⟩
  have laid_out : MemoryDisk.empty.AllowsAll (.ofText "/story")
      [.write (.ofNames ["main.ink"]) "Main".toUTF8] := ⟨⟨main, by decide +kernel⟩, trivial⟩
  have built : FileGraph.build (.ofText "/story") { extension := "ink" } oneFileDisk = .ok _ :=
    FileGraph.build_of_rebuild (Option.isNone_iff_eq_none.mp (by decide +kernel))
  refine run_inSync laid_out built ?_ ?_
  · exact ⟨⟨artifact, by decide +kernel⟩, artifact, trivial⟩
  · exact ⟨⟨.refresh (.ofNames ["later.json"]), by simp, rfl⟩, trivial⟩

/-- The file comes later, and only a rebuild finds its artifact. -/
theorem later_artifact_not_refreshed :
    let later := Path.ofNames ["later.ink"]
    let written := awaitingLater.step (.edit (.write later "Later".toUTF8))
    ∃ f, (written.step .rebuild).graph.file? later = some f ∧
      (written.step (.refresh later)).graph.file? later = some { f with artifact := none } ∧
      f.artifact.map Path.text = some "later.json" := by
  intro later written
  have normal : later.IsNormalized :=
    Path.isNormalized_ofName ⟨by decide +kernel, by decide +kernel⟩
  have allowed : awaitingLater.Allows (.edit (.write later "Later".toUTF8)) :=
    ⟨normal, by decide +kernel⟩
  obtain ⟨f, rebuilt, refreshed, on_disk⟩ := refreshed_lacks_artifact awaitingLater_inSync
    (by decide +kernel) (by decide +kernel) allowed
  refine ⟨f, rebuilt, refreshed, ?_⟩
  rw [on_disk, if_pos (by decide +kernel)]
  decide +kernel

end Project

end StoryBuild
