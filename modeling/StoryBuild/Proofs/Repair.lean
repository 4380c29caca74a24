import StoryBuild.Engine.Requests
import StoryBuild.Proofs.IncludeEdges
import StoryBuild.Proofs.StorageLaws

namespace StoryBuild

namespace Storage

variable {σ : Type} [Storage σ] {s s' s'' : σ}

/-- Whether two states of a storage have the same files and directories. -/
structure Alike (s s' : σ) : Prop where
  file : ∀ p, isFile s' p = isFile s p
  dir : ∀ p, isDir s' p = isDir s p

theorem Alike.refl (s : σ) : Alike s s :=
  ⟨fun _ => rfl, fun _ => rfl⟩

theorem Alike.trans (h : Alike s s') (h' : Alike s' s'') : Alike s s'' :=
  ⟨fun p => (h'.file p).trans (h.file p), fun p => (h'.dir p).trans (h.dir p)⟩

theorem alike_modified [Lawful σ] (s : σ) (p : Path) : Alike s (modified s p).2 :=
  ⟨Lawful.isFile_modified s p, Lawful.isDir_modified s p⟩

end Storage

namespace FileGraph

variable {σ : Type} [Storage σ] {g : FileGraph} {s s' : σ} {f k : SourceFile} {p : Path}

/-- Whether an include, written in a file, names a file on the disk that is not tracked. -/
def overlooks (g : FileGraph) (s : σ) (f : SourceFile) (raw : String) : Bool :=
  (f.path.dirOf.resolveInclude raw).any fun t =>
    !g.isTracked t && Storage.isFile s (g.absolute t)

/-- What the check reports about a graph: the includes that name untracked files on the disk, and
nothing else. -/
structure Repaired (g : FileGraph) (s : σ) : Prop where
  problems : g.validate s = g.files.flatMap fun f =>
    (f.rawIncludes.filter (g.overlooks s f)).map (.appeared f.path)
  required : g.requiresRebuild s = true ↔
    ∃ f ∈ g.files, ∃ raw ∈ f.rawIncludes, g.overlooks s f raw = true

theorem Linked.no_edge_problem (linked : g.Linked) (order : InPathOrder g.files)
    (hf : f ∈ g.files) : f.includes.filterMap (g.edgeProblem? f.path) = [] := by
  refine List.filterMap_eq_nil_iff.mpr fun t ht => ?_
  obtain ⟨k, hk, path, -⟩ := (linked.edges order hf t).mp ⟨t, ht, rfl⟩
  have found : g.file? t = some k := (file_congr_parts path).symm.trans (file_of_mem order hk)
  have includes : f.includes.any (· == k.path) = true :=
    List.any_eq_true.mpr ⟨t, ht, Path.beq_iff.mpr path.symm⟩
  have known : f.path ∈ k.parents := by
    rw [(linked.records hk).2.1, parentsOf]
    exact List.mem_map.mpr ⟨f, List.mem_filter.mpr ⟨hf, includes⟩, rfl⟩
  have listed : k.parents.any (· == f.path) = true :=
    List.any_eq_true.mpr ⟨f.path, known, Path.beq_iff.mpr rfl⟩
  simp only [edgeProblem?, found, listed, if_true]

theorem Linked.no_parent_problem (linked : g.Linked) (order : InPathOrder g.files)
    (hf : f ∈ g.files) : f.parents.filterMap (g.parentProblem? f.path) = [] := by
  refine List.filterMap_eq_nil_iff.mpr fun parent hp => ?_
  rw [(linked.records hf).2.1, parentsOf] at hp
  obtain ⟨k, hk, rfl⟩ := List.mem_map.mp hp
  obtain ⟨hk, includes⟩ := List.mem_filter.mp hk
  rw [parentProblem?, file_of_mem order hk, Option.any_some, if_pos includes]

/-- An include of a tracked file is reported exactly if it is overlooked. -/
theorem issueProblem_of_raw (hf : f ∈ g.files) (s : σ) (raw : String) :
    (match g.resolveRaw f.path raw with
      | .ok _ => none
      | .error issue => some issue).bind (g.issueProblem? s f.path) =
    if g.overlooks s f raw then some (.appeared f.path raw) else none := by
  unfold overlooks resolveRaw
  cases named : f.path.dirOf.resolveInclude raw with
  | none => rfl
  | some t =>
    rw [Option.any_some]
    dsimp only
    cases tracked : g.isTracked t with
    | false =>
      have other : (t == f.path) = false := by
        refine Path.beq_false_iff.mpr fun same => ?_
        rw [isTracked_iff.mpr ⟨f, hf, same.symm⟩] at tracked
        cases tracked
      simp [other, issueProblem?, named]
    | true =>
      simp only [Bool.not_true, Bool.false_and, Bool.false_eq_true, if_false]
      split
      next => split at * <;> simp_all
      next issue left =>
        split at left
        next =>
          obtain rfl := Except.error.inj left
          rfl
        next =>
          split at left
          next =>
            obtain rfl := Except.error.inj left
            rfl
          next => cases left

/-- The issues of a linked record are reported for the includes that are overlooked. -/
theorem Linked.issue_problems (linked : g.Linked) (order : InPathOrder g.files) (hf : f ∈ g.files)
    (s : σ) : f.issues.filterMap (g.issueProblem? s f.path) =
      (f.rawIncludes.filter (g.overlooks s f)).map (.appeared f.path) := by
  have above : (g.ownershipIssues f).filterMap (g.issueProblem? s f.path) = [] := by
    refine List.filterMap_eq_nil_iff.mpr fun issue hi => ?_
    have not_local := ownershipIssues_isLocal hi
    cases issue with
    | missing => cases not_local
    | _ => rfl
  rw [linked.issues order hf, List.filterMap_append, above, List.append_nil, issuesOf,
    List.filterMap_filterMap]
  refine (congrArg (List.filterMap · f.rawIncludes)
    (funext (issueProblem_of_raw hf s))).trans ?_
  rw [← List.filterMap_eq_filter, List.map_filterMap]
  congr 1
  funext raw
  cases overlooked : g.overlooks s f raw <;> simp [Option.guard, overlooked]

/-- Whether every tracked path is a file. -/
def AllThere (g : FileGraph) (s : σ) : Prop :=
  ∀ f ∈ g.files, Storage.isFile s (g.absolute f.path) = true

theorem AllThere.congr {new : FileGraph} (h : g.AllThere s) (alike : Storage.Alike s s')
    (place : new.place = g.place) (paths : new.paths = g.paths) : new.AllThere s' := by
  intro f hf
  have old : f.path ∈ g.paths := paths ▸ List.mem_map_of_mem hf
  obtain ⟨k, hk, path⟩ := List.mem_map.mp old
  rw [absolute_of_place place, alike.file, ← path]
  exact h k hk

variable [Storage.Lawful σ]

theorem sortEntries_no_dir (entries : List Path) :
    ∀ p ∈ (g.sortEntries s entries).2, Storage.isDir s (g.absolute p) = false := by
  intro p hp
  obtain ⟨e, he, rfl⟩ := List.mem_map.mp hp
  obtain ⟨he, source⟩ := List.mem_filter.mp he
  obtain ⟨entry, -, seen⟩ := List.mem_filterMap.mp he
  obtain ⟨rel, stripped, rfl⟩ := Option.map_eq_some_iff.mp seen
  rw [absolute, Storage.Lawful.isDir_congr s (Path.join_stripPrefix stripped)]
  simpa using (Bool.and_eq_true_iff.mp source).1

theorem scan_no_dir {found : List Path} (scanned : g.scan s = .ok found) :
    ∀ p ∈ found, Storage.isDir s (g.absolute p) = false :=
  scan_forall sortEntries_no_dir scanned

theorem alike_modifiedTwice {result : Except IoError Nat}
    (read : modifiedTwice s p = (result, s')) : Storage.Alike s s' :=
  modifiedTwice_keeps (fun s' q alike => alike.trans (Storage.alike_modified s' q)) (.refl s) read

/-- A path whose time is read, with a second try, is a file unless it is a directory. -/
theorem isFile_of_modifiedTwice {time : Nat} (read : (modifiedTwice s p).1 = .ok time)
    (no_dir : Storage.isDir s p = false) : Storage.isFile s p = true := by
  have alike := Storage.alike_modified s p
  unfold modifiedTwice at read
  split at read
  next time s' first =>
    rcases Storage.Lawful.file_or_dir s (congrArg Prod.fst first) with file | dir
    · exact file
    · rw [dir] at no_dir
      cases no_dir
  next e s' first =>
    rw [first] at alike
    rcases Storage.Lawful.file_or_dir s' read with file | dir
    · rwa [alike.file] at file
    · rw [alike.dir, no_dir] at dir
      cases dir

theorem importAll_allThere (l : List Path) (found : Found) (there : g.AllThere s)
    (no_dirs : ∀ p ∈ l, Storage.isDir s (g.absolute p) = false) :
    (l.foldl importFile (g, s, found)).1.AllThere (l.foldl importFile (g, s, found)).2.1 := by
  refine (importAll_preserves (M := fun new s' => new.place = g.place ∧ Storage.Alike s s' ∧
    new.AllThere s') ?_ ?_ ⟨rfl, .refl s, there⟩ found).2.2
  · rintro new s₁ s₂ p cause ⟨place, alike, there⟩ - read
    have more : Storage.Alike s₁ s₂ := alike_modifiedTwice read
    exact ⟨place, alike.trans more, there.congr more rfl rfl⟩
  · rintro new s₁ s₂ p time ⟨place, alike, there⟩ hp untracked read
    have more : Storage.Alike s₁ s₂ := alike_modifiedTwice read
    have no_dir : Storage.isDir s₁ (new.absolute p) = false := by
      rw [alike.dir, absolute_of_place place]
      exact no_dirs p hp
    have file : Storage.isFile s₁ (new.absolute p) = true :=
      isFile_of_modifiedTwice (congrArg Prod.fst read) no_dir
    refine ⟨place, alike.trans more, fun f hf => ?_⟩
    rcases (mem_insert untracked).mp hf with rfl | hf
    · exact (more.file _).trans file
    · exact there.congr more rfl rfl f hf

theorem alike_reparseAll (g : FileGraph) (s : σ) (l : List Path) :
    Storage.Alike s (g.reparseAll s l).2 :=
  reparseAll_preserves (M := fun _ s' => Storage.Alike s s')
    (fun _ alike => alike.trans (Storage.alike_modified _ _)) (.refl s) l

theorem discover_allThere {new : FileGraph} {found : Found} (there : g.AllThere s)
    (done : g.discover s = .ok (new, s', found)) : new.AllThere s' := by
  obtain ⟨paths, scanned, state⟩ := discover_ok done
  have imported := importAll_allThere paths {} there (scan_no_dir scanned)
  rwa [state] at imported

theorem rebuild_allThere (done : (g.rebuild s).1 = none) :
    (g.rebuild s).2.graph.AllThere (g.rebuild s).2.storage := by
  have kept : (g.prune s).AllThere s := fun f hf => (List.mem_filter.mp hf).2
  unfold rebuild at done ⊢
  dsimp only at done ⊢
  split
  next failed =>
    rw [failed] at done
    cases done
  next new s' found discovered =>
    have there := discover_allThere kept discovered
    exact there.congr (alike_reparseAll new s' new.paths) (reparseAll_place new s' new.paths)
      ((relink_paths _).trans (reparseAll_paths new s' new.paths))

omit [Storage.Lawful σ] in
/-- A rebuild leaves nothing to report but the includes that it overlooks. -/
theorem Linked.repaired (linked : g.Linked) (order : InPathOrder g.files) (there : g.AllThere s) :
    g.Repaired s := by
  have problems : g.validate s = g.files.flatMap fun f =>
      (f.rawIncludes.filter (g.overlooks s f)).map (.appeared f.path) := by
    refine List.flatMap_congr fun f hf => ?_
    rw [problemsAt, if_pos (there f hf), linked.no_edge_problem order hf,
      linked.no_parent_problem order hf, linked.issue_problems order hf]
    simp
  refine ⟨problems, ?_⟩
  rw [requiresRebuild, problems, Bool.not_eq_true', List.isEmpty_eq_false_iff_exists_mem]
  constructor
  · rintro ⟨problem, hp⟩
    obtain ⟨f, hf, reported⟩ := List.mem_flatMap.mp hp
    obtain ⟨raw, hraw, -⟩ := List.mem_map.mp reported
    obtain ⟨written, overlooked⟩ := List.mem_filter.mp hraw
    exact ⟨f, hf, raw, written, overlooked⟩
  · rintro ⟨f, hf, raw, written, overlooked⟩
    exact ⟨.appeared f.path raw, List.mem_flatMap.mpr ⟨f, hf,
      List.mem_map_of_mem (List.mem_filter.mpr ⟨written, overlooked⟩)⟩⟩

theorem rebuild_repaired (order : InPathOrder g.files) (done : (g.rebuild s).1 = none) :
    (g.rebuild s).2.graph.Repaired (g.rebuild s).2.storage :=
  (rebuild_linked done).repaired (rebuild_inPathOrder order s) (rebuild_allThere done)

theorem build_repaired {root : Path} {options : GraphOptions} {reading : Reading σ}
    (done : build root options s = .ok reading) : reading.graph.Repaired reading.storage := by
  have succeeds := rebuild_of_build done
  have repaired := rebuild_repaired (g := empty root options) (s := s) .nil (by rw [succeeds])
  rwa [succeeds] at repaired

end FileGraph

namespace Engine

variable {τ : Type} [Workshop τ] {e e' : Engine τ}

/-- Building the graph again leaves the engine with what was read. -/
theorem rebuildGraph_read (done : e.rebuildGraph = (.ok (), e')) :
    (e.graph.rebuild e.site).1 = none ∧ e'.graph = (e.graph.rebuild e.site).2.graph ∧
      e'.site = (e.graph.rebuild e.site).2.storage := by
  unfold rebuildGraph at done
  split at done
  next => cases done
  next =>
    dsimp only at done
    split at done
    next => cases done
    next none_ =>
      obtain ⟨-, rfl⟩ := Prod.mk.inj done
      exact ⟨none_, rfl, rfl⟩

theorem rebuildIfRequired_idle :
    e.rebuildIfRequired.1 = .ok false ↔ e.graph.requiresRebuild e.site = false := by
  unfold rebuildIfRequired
  cases required : e.graph.requiresRebuild e.site with
  | false => simp
  | true =>
    rw [if_pos rfl]
    split <;> simp

/-- A rebuild that is required and can be done is done. -/
theorem rebuildIfRequired_done (idle : e.isBusy = false)
    (required : e.graph.requiresRebuild e.site = true)
    (done : (e.graph.rebuild e.site).1 = none) :
    ∃ e', e.rebuildIfRequired = (.ok true, e') ∧ e'.graph = (e.graph.rebuild e.site).2.graph ∧
      e'.site = (e.graph.rebuild e.site).2.storage := by
  have read : ∃ e', e.rebuildGraph = (.ok (), e') := by
    unfold rebuildGraph
    rw [if_neg (by simp [idle])]
    dsimp only
    split
    next failed =>
      rw [failed] at done
      cases done
    next => exact ⟨_, rfl⟩
  obtain ⟨e', read⟩ := read
  exact ⟨e', by rw [rebuildIfRequired, if_pos required, read], (rebuildGraph_read read).2⟩

theorem rebuildIfRequired_again [Storage.Lawful τ] {rebuilt : Bool}
    (order : InPathOrder e.graph.files) (done : e.rebuildIfRequired = (.ok rebuilt, e')) :
    e'.rebuildIfRequired.1 = .ok false ↔ (rebuilt = true → ∀ f ∈ e'.graph.files,
      ∀ raw ∈ f.rawIncludes, e'.graph.overlooks e'.site f raw = false) := by
  rw [rebuildIfRequired_idle]
  unfold rebuildIfRequired at done
  split at done
  next =>
    split at done
    next read =>
      obtain ⟨answer, rfl⟩ := Prod.mk.inj done
      obtain rfl := Except.ok.inj answer
      obtain ⟨none_, graph, site⟩ := rebuildGraph_read read
      have repaired := FileGraph.rebuild_repaired order none_
      rw [← graph, ← site] at repaired
      rw [← Bool.not_eq_true, repaired.required]
      simp
    next => cases (Prod.mk.inj done).1
  next idle =>
    obtain ⟨answer, rfl⟩ := Prod.mk.inj done
    obtain rfl := Except.ok.inj answer
    simpa using idle

end Engine

/-- After a build or a rebuild that succeeds, and with the disk as it was read, the check reports
exactly the includes that name files on the disk which are not tracked; a rebuild on demand right
after another one has nothing to do exactly if the first rebuilt nothing or there are no such
includes. -/
theorem rebuild_repairs {σ τ : Type} [Storage σ] [Storage.Lawful σ] [Workshop τ]
    [Storage.Lawful τ] :
    (∀ root options (s : σ) (reading : FileGraph.Reading σ),
      FileGraph.build root options s = .ok reading → reading.graph.Repaired reading.storage) ∧
    (∀ (g : FileGraph) (s : σ), InPathOrder g.files → (g.rebuild s).1 = none →
      (g.rebuild s).2.graph.Repaired (g.rebuild s).2.storage) ∧
    ∀ (e e' : Engine τ) (rebuilt : Bool), InPathOrder e.graph.files →
      e.rebuildIfRequired = (.ok rebuilt, e') →
      (e'.rebuildIfRequired.1 = .ok false ↔ (rebuilt = true → ∀ f ∈ e'.graph.files,
        ∀ raw ∈ f.rawIncludes, e'.graph.overlooks e'.site f raw = false)) :=
  ⟨fun _ _ _ _ => FileGraph.build_repaired, fun _ _ => FileGraph.rebuild_repaired,
    fun _ _ _ => Engine.rebuildIfRequired_again⟩

/-- A project whose main file includes a text that is no source. -/
def notesSite : Sandbox where
  disk := (MemoryDisk.empty.addFile (.ofText "/story/main.ink")
    "INCLUDE notes.txt\n".toUTF8).addFile (.ofText "/story/notes.txt") "Notes.\n".toUTF8

/-- A graph of that project with some records. -/
def notesGraph (files : List SourceFile) : FileGraph :=
  ⟨.ofText "/story", { extension := "ink" }, files⟩

theorem notes_scan (files : List SourceFile) :
    (notesGraph files).scan notesSite = .ok [.ofText "main.ink"] := by
  have listed : Storage.readDir notesSite (.ofText "/story") =
      .ok [.ofText "/story/main.ink", .ofText "/story/notes.txt"] := by
    change Except.ok (List.mergeSort [Path.ofText "/story/main.ink", .ofText "/story/notes.txt"]
      fun a b => !b.before a) = _
    rw [List.mergeSort_of_pairwise (by decide +kernel)]
  have parted : (notesGraph []).sortEntries notesSite
      [.ofText "/story/main.ink", .ofText "/story/notes.txt"] = ([], [.ofText "main.ink"]) := by
    have texts : (((notesGraph []).sortEntries notesSite
        [.ofText "/story/main.ink", .ofText "/story/notes.txt"]).1.map Path.text,
        ((notesGraph []).sortEntries notesSite
        [.ofText "/story/main.ink", .ofText "/story/notes.txt"]).2.map Path.text) =
        ([], ["main.ink"]) := by decide +kernel
    obtain ⟨dirs, sources⟩ := Prod.mk.inj texts
    obtain ⟨p, source, text⟩ := List.map_eq_singleton_iff.mp sources
    have main : p = .ofText "main.ink" := Path.ext_text text
    exact Prod.ext (List.map_eq_nil_iff.mp dirs) (source.trans (by rw [main]))
  have size : Storage.size notesSite = 6 := by decide +kernel
  have walked : (notesGraph files).scanFrom notesSite 6 [.ofText "/story"] =
      .ok [.ofText "main.ink"] := by
    have same : (notesGraph files).sortEntries notesSite = (notesGraph []).sortEntries notesSite :=
      rfl
    rw [FileGraph.scanFrom, listed]
    simp only [bind, Except.bind, same, parted]
    rfl
  rw [FileGraph.scan, size]
  change ((notesGraph files).scanFrom notesSite 6 [.ofText "/story"]).map _ = _
  rw [walked]
  change Except.ok (List.mergeSort [_] _) = _
  rw [List.mergeSort_singleton]

theorem notes_discover (files : List SourceFile) :
    (notesGraph files).discover notesSite =
      .ok (FileGraph.importFile (notesGraph files, notesSite, {}) (.ofText "main.ink")) := by
  rw [FileGraph.discover, notes_scan]
  rfl

/-- The record of the main file after a build. -/
def notesMain : SourceFile :=
  { path := .ofText "main.ink", rawIncludes := ["notes.txt"], masters := [.ofText "main.ink"],
    issues := [.missing "notes.txt"] }

/-- An engine that has built that project. -/
def notesEngine : Engine Sandbox where
  graph := notesGraph [notesMain]
  options := {}
  site := notesSite

theorem notes_reported_again :
    (∃ reading, FileGraph.build (.ofText "/story") { extension := "ink" } notesSite = .ok reading ∧
      (reading.graph.validate reading.storage).map FileGraph.Problem.message =
        ["main.ink includes notes.txt, which exists now"] ∧
      reading.graph.Repaired reading.storage) ∧
    (((notesGraph [notesMain]).rebuild notesSite).1 = none ∧
      ((notesGraph [notesMain]).rebuild notesSite).2.graph.Repaired
        ((notesGraph [notesMain]).rebuild notesSite).2.storage) ∧
    ∃ e', notesEngine.rebuildIfRequired = (.ok true, e') ∧ e'.rebuildIfRequired.1 ≠ .ok false := by
  obtain ⟨build_repairs, repairs, again⟩ := rebuild_repairs (σ := Sandbox) (τ := Sandbox)
  have kept : (notesGraph [notesMain]).prune notesSite = notesGraph [notesMain] := by
    have file : ∀ f ∈ [notesMain], Storage.isFile notesSite
        ((notesGraph [notesMain]).absolute f.path) = true := by
      decide +kernel
    exact congrArg notesGraph (List.filter_eq_self.mpr file)
  have order : InPathOrder (notesGraph [notesMain]).files := List.pairwise_singleton _ _
  obtain ⟨none_, graph, storage⟩ :=
    FileGraph.rebuild_of_discover ((congrArg (·.discover notesSite) kept).trans (notes_discover _))
  refine ⟨?_, ⟨none_, repairs _ _ order none_⟩, ?_⟩
  · obtain ⟨none', graph', storage'⟩ :=
      @FileGraph.rebuild_of_discover (notesGraph []) _ _ notesSite _ (notes_discover [])
    have built : FileGraph.build (.ofText "/story") { extension := "ink" } notesSite = _ :=
      FileGraph.build_of_rebuild none'
    refine ⟨_, built, ?_, build_repairs _ _ _ _ built⟩
    change (((notesGraph []).rebuild notesSite).2.graph.validate
      ((notesGraph []).rebuild notesSite).2.storage).map _ = _
    rw [graph', storage']
    decide +kernel
  · obtain ⟨e', rebuilt, same_graph, same_site⟩ := notesEngine.rebuildIfRequired_done rfl
      (by decide +kernel) none_
    refine ⟨e', rebuilt, fun idle => ?_⟩
    have clean := (again _ e' true order rebuilt).mp idle rfl
    have overlooked : (e'.graph.files.any fun f =>
        f.rawIncludes.any (e'.graph.overlooks e'.site f)) = true := by
      rw [same_graph.trans graph, same_site.trans storage]
      decide +kernel
    obtain ⟨f, hf, some_raw⟩ := List.any_eq_true.mp overlooked
    obtain ⟨raw, hraw, stray⟩ := List.any_eq_true.mp some_raw
    rw [clean f hf raw hraw] at stray
    cases stray

end StoryBuild
