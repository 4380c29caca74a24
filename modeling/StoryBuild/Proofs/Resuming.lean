import StoryBuild.Proofs.Restoring

namespace StoryBuild.Engine

variable {σ : Type} {p : Path} {e : Engine σ}

/-- The masters with work left, each once: those of the active jobs, then those that wait and have
no job. -/
def unfinished (e : Engine σ) : List Path :=
  e.jobs.map Job.path ++ e.pending.order.filter fun m => !e.hasActiveJob m

theorem snapshot_paths (e : Engine σ)
    (plain : ∀ m ∈ e.jobs.map Job.path ++ e.pending.order, '\\' ∉ m.text.toList) :
    (e.snapshot.active.map SavedJob.path ++ e.snapshot.pending).map Path.ofText =
      e.jobs.map Job.path ++ e.pending.order := by
  have slashes : e.snapshot.active.map SavedJob.path ++ e.snapshot.pending =
      (e.jobs.map Job.path ++ e.pending.order).map fun m => slashed m.text := by
    simp [snapshot, Function.comp_def]
  rw [slashes, List.map_map]
  refine (List.map_congr_left fun m hm => ?_).trans (List.map_id _)
  exact Path.ofText_slashed (plain m hm)

theorem active_distinct (sane : (e.desk .steady true).Sane) :
    (e.jobs.map Job.path).Pairwise fun x y => x.parts ≠ y.parts := by
  refine List.pairwise_map.mpr (sane.kept.ordered.order.imp fun precedes => ?_)
  exact Path.beq_false_iff.mp precedes.path

/-- What is taken up from a snapshot of an engine is what the engine left unfinished. -/
theorem resume_snapshot (sane : (e.desk .steady true).Sane)
    (plain : ∀ m ∈ e.jobs.map Job.path ++ e.pending.order, '\\' ∉ m.text.toList)
    (g : FileGraph) :
    (e.snapshot.resume.map Path.ofText).foldl (takeUp g) [] = e.unfinished.filter g.isMaster := by
  have waiting : e.pending.order.Pairwise fun x y => x.parts ≠ y.parts := sane.valid.once
  rw [Snapshot.resume_takeUp, snapshot_paths e plain, takeUp_both (active_distinct sane) waiting]
  simp only [unfinished, hasActiveJob_eq]

theorem unfinished_distinct (sane : (e.desk .steady true).Sane) :
    e.unfinished.Pairwise fun x y => x.parts ≠ y.parts := by
  have waiting : (e.pending.order.filter fun m => !e.hasActiveJob m).Pairwise
      fun x y => x.parts ≠ y.parts := List.Pairwise.sublist List.filter_sublist sane.valid.once
  refine List.pairwise_append.mpr ⟨active_distinct sane, waiting, ?_⟩
  intro x hx y hy same
  have free := (List.mem_filter.mp hy).2
  rw [hasActiveJob_eq] at free
  have known : (e.jobs.map Job.path).any (· == y) = true :=
    List.any_eq_true.mpr ⟨x, hx, Path.beq_iff.mpr same⟩
  simp [known] at free

variable [Workshop σ]

omit [Workshop σ] in
theorem fresh_tookUp (g : FileGraph) (options : EngineOptions) (site : σ) (dawn : Nat) :
    (fresh g options site dawn).TookUp g [] [] :=
  ⟨rfl, rfl, rfl, rfl, rfl⟩

omit [Workshop σ] in
theorem fresh_parked (g : FileGraph) (options : EngineOptions) (site : σ) (dawn : Nat) :
    ((fresh g options site dawn).changeMode .restricted).Parked g [] [] :=
  ⟨rfl, rfl, rfl, Pending.valid_empty, rfl, rfl⟩

/-- The work that an engine finds on its disk: that of a snapshot, or none. -/
def Finds (p : Path) (s : σ) (saved : Snapshot) : Prop :=
  Snapshot.load s p = .ok (some saved) ∨ (Snapshot.load s p = .ok none ∧ saved.isEmpty = true)

/-- Building a graph reads the disk and leaves the file of the snapshot alone. -/
theorem Finds.built {S : σ → Prop} {spelled : ByteArray → Except IoError String} {saved : Snapshot}
    {root : Path} {options : GraphOptions} {s : σ} {reading : FileGraph.Reading σ}
    (found : Finds p s saved) (reserved : Reserved p spelled S) (among : S s)
    (built : FileGraph.build root options s = .ok reading) : Finds p reading.storage saved := by
  have same : S reading.storage ∧ Storage.fileText reading.storage p = Storage.fileText s p := by
    refine FileGraph.build_keeps (P := fun t => S t ∧
      Storage.fileText t p = Storage.fileText s p) (fun t q ht => ?_) built ⟨among, rfl⟩
    obtain ⟨among, text⟩ := reserved.timed t q ht.1
    exact ⟨among, text.trans ht.2⟩
  unfold Finds at found ⊢
  rwa [Snapshot.load_congr same.2]

omit [Workshop σ] in
theorem shutdown_site (e : Engine σ) : e.shutdown.site = e.site := by
  unfold shutdown cancelWorker
  split
  next => rfl
  next => dsimp only; split <;> rfl

/-- Where an engine has some work to find, it takes the masters in it up. -/
theorem Restores.load {K : List Path → List Nat → Engine σ → Prop} (restores : Restores K)
    {saved : Snapshot} (kept : e.options.statePath = some p) (found : Finds p e.site saved)
    (h : K [] [] e) :
    ∃ ids, e.loadAndRestore.1 = .ok ids ∧
      K (saved.resume.map .ofText) ids e.loadAndRestore.2 := by
  unfold loadAndRestore
  rw [kept]
  dsimp only
  rcases found with found | ⟨found, none_⟩
  · rw [found]
    exact ⟨_, rfl, restores.restore saved h⟩
  · rw [found, resume_of_empty none_]
    exact ⟨[], rfl, h⟩

section Run

variable {options : EngineOptions} {g : FileGraph} {site : σ} {dawn : Nat} {S : σ → Prop}
  {spelled : ByteArray → Except IoError String} {acts : List (Act σ)}

/-- An engine leaves its queue on the disk, if it has written it or found no work there. -/
theorem run_finds (kept : options.statePath = some p) (reserved : Reserved p spelled S)
    (among : S site) (outside : (fresh g options site dawn).LeavesFile p S acts)
    (accepted : .log refusalLine ∉ ((fresh g options site dawn).run acts).trace)
    (begun : (lastWritten p ((fresh g options site dawn).run acts).trace).isSome = true ∨
      Finds p site {}) :
    Finds p ((fresh g options site dawn).run acts).site
      ((fresh g options site dawn).run acts).snapshot := by
  have stands := run_fresh_stands reserved among outside
  have mirrors := run_mirrors (p := p) (fresh g options site dawn) acts
  generalize (fresh g options site dawn).run acts = e at accepted begun stands mirrors
  rcases mirrors.saved kept with saved | ⟨queue, last⟩
  · exact .inl (load_of_saved reserved stands accepted saved)
  · -- Nothing was written, so the file is as it was and the queue is still empty.
    have nothing : lastWritten p e.trace = none := last
    have file : Storage.fileText e.site p = Storage.fileText site p := by
      rw [stands.text, nothing]
      rfl
    have blank := begun.resolve_left (by simp [nothing])
    unfold Finds at blank ⊢
    rwa [Snapshot.load_congr file, queue]

/-- Whatever was asked of an engine that keeps its snapshot at a path to which nothing else writes,
with no snapshot refused and no backslash in the names of its masters: once it is shut down, a new
engine on its disk takes up the masters left unfinished, in order and once, as far as the new graph
still has them as masters. While sources are edited they are its jobs, and otherwise they wait. -/
theorem run_restart_resumes (kept : options.statePath = some p) (reserved : Reserved p spelled S)
    (among : S site) (outside : (fresh g options site dawn).LeavesFile p S acts)
    (accepted : .log refusalLine ∉ ((fresh g options site dawn).run acts).trace)
    (begun : (lastWritten p ((fresh g options site dawn).run acts).trace).isSome = true ∨
      Finds p site {})
    (plain : ∀ m ∈ ((fresh g options site dawn).run acts).jobs.map Job.path ++
      ((fresh g options site dawn).run acts).pending.order, '\\' ∉ m.text.toList)
    {root : Path} {graphOptions : GraphOptions} {reading : FileGraph.Reading σ}
    (built : FileGraph.build root graphOptions
      ((fresh g options site dawn).run acts).shutdown.site = .ok reading)
    {options' : EngineOptions} (kept' : options'.statePath = some p) (dawn' now : Nat) :
    let old := (fresh g options site dawn).run acts
    let next := fresh reading.graph options' reading.storage dawn'
    let wanted := old.unfinished.filter reading.graph.isMaster
    (∃ ids, next.loadAndRestore.1 = .ok ids ∧ next.loadAndRestore.2.jobs.map Job.path = wanted ∧
      ids = next.loadAndRestore.2.jobs.map Job.id ∧ ids.Nodup ∧
      wanted.Pairwise (fun x y => (x == y) = false) ∧
      next.loadAndRestore.2.pending.order = []) ∧
    (next.setMode .restricted now).loadAndRestore.1 = .ok [] ∧
    (next.setMode .restricted now).loadAndRestore.2.pending.order = wanted ∧
    (next.setMode .restricted now).loadAndRestore.2.jobs = [] := by
  intro old next wanted
  have sane : (old.desk .steady true).Sane := run_sane (fresh_sane g options site dawn) acts
  have left := run_finds kept reserved among outside accepted begun
  have stands := run_fresh_stands reserved among outside
  have found : Finds p reading.storage old.snapshot := by
    rw [shutdown_site] at built
    exact left.built reserved stands.among built
  have resumed := resume_snapshot sane plain reading.graph
  constructor
  · obtain ⟨ids, answer, took⟩ :=
      (restores_tookUp reading.graph).load (e := next) kept' found
        (fresh_tookUp reading.graph options' reading.storage dawn')
    have sane' : (next.loadAndRestore.2.desk .steady true).Sane :=
      act_sane (fresh_sane reading.graph options' reading.storage dawn') .loadAndRestore
    have increasing : (next.loadAndRestore.2.jobs.map Job.id).Pairwise (· < ·) :=
      List.pairwise_map.mpr (sane'.kept.ordered.order.imp fun precedes => precedes.id)
    refine ⟨ids, answer, took.jobs.trans resumed, took.ids, ?_, ?_, took.waiting⟩
    · rw [took.ids]
      exact increasing.imp Nat.ne_of_lt
    · refine ((unfinished_distinct sane).sublist List.filter_sublist).imp ?_
      exact fun other => Path.beq_false_iff.mpr other
  · obtain ⟨ids, answer, parked⟩ :=
      (restores_parked reading.graph).load (e := next.setMode .restricted now) kept' found
        (fresh_parked reading.graph options' reading.storage dawn')
    exact ⟨parked.ids ▸ answer, parked.waiting.trans resumed, parked.jobs⟩

end Run

/-- A disk with one story. -/
def oneStory : Sandbox where
  disk := MemoryDisk.empty.addFile (.ofText "/story/a.ink") .empty

/-- A graph from before another story was deleted. -/
def twoStories : FileGraph where
  root := .ofText "/story"
  options := { extension := "ink" }
  files := ["a.ink", "b.ink"].map fun name =>
    { path := .ofText name, masters := [.ofText name] }

/-- The deleted story cannot be read, and the other one is to be compiled again. -/
def leftRun : List (Act Sandbox) :=
  [.compileFile (.ofText "b.ink") false, .compileFile (.ofText "a.ink") false,
    .compileFile (.ofText "a.ink") false]

theorem left_story_resumes :
    let options : EngineOptions := { statePath := some (.ofText "/queue.json") }
    let old := (fresh twoStories options oneStory 0).run leftRun
    old.unfinished.map Path.text = ["b.ink", "a.ink"] ∧
      old.pending.order.map Path.text = ["a.ink"] ∧
      ∃ reading, FileGraph.build twoStories.root twoStories.options old.shutdown.site =
          .ok reading ∧
        let next := fresh reading.graph options reading.storage 0
        (∃ ids, next.loadAndRestore.1 = .ok ids ∧ ids.Nodup) ∧
          next.loadAndRestore.2.jobs.map (·.path.text) = ["a.ink"] ∧
          (next.setMode .restricted 0).loadAndRestore.2.pending.order.map Path.text =
            ["a.ink"] := by
  intro options old
  have outside : (fresh twoStories options oneStory 0).LeavesFile (.ofText "/queue.json")
      (fun _ => True) leftRun :=
    .cons (fun _ h => nomatch h) (.cons (fun _ h => nomatch h) (.cons (fun _ h => nomatch h) .nil))
  have calm : Undisturbed (.ofText "/queue.json") twoStories old.trace := by decide +kernel
  have begun : (lastWritten (.ofText "/queue.json") old.trace).isSome = true := by decide +kernel
  have plain : ∀ m ∈ old.jobs.map Job.path ++ old.pending.order, '\\' ∉ m.text.toList := by
    decide +kernel
  have wanted : ((FileGraph.build twoStories.root twoStories.options
      old.shutdown.site).toOption.map fun reading =>
        (old.unfinished.filter reading.graph.isMaster).map Path.text) = some ["a.ink"] := by
    decide +kernel
  have texts : old.unfinished.map Path.text = ["b.ink", "a.ink"] ∧
      old.pending.order.map Path.text = ["a.ink"] := by decide +kernel
  cases built : FileGraph.build twoStories.root twoStories.options old.shutdown.site with
  | error cause => simp [built, Except.toOption] at wanted
  | ok reading =>
    have kept : options.statePath = some (.ofText "/queue.json") := rfl
    obtain ⟨⟨ids, answer, jobs, -, once, -⟩, -, waiting, -⟩ := run_restart_resumes kept
      (Sandbox.reserved _) trivial outside calm.accepted (.inl begun) plain built kept 0 0
    have paths : (old.unfinished.filter reading.graph.isMaster).map Path.text = ["a.ink"] := by
      simpa [built, Except.toOption] using wanted
    refine ⟨texts.1, texts.2, reading, rfl, ⟨ids, answer, once⟩, ?_, ?_⟩
    · rw [← paths, ← jobs, List.map_map]
      rfl
    · rw [← paths, ← waiting]

end StoryBuild.Engine
