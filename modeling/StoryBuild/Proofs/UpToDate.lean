import StoryBuild.Graph.History
import StoryBuild.Proofs.Rereading

namespace StoryBuild

namespace MemoryDisk

theorem empty_inOrder (root : List Part) : InOrder root empty.entries := by
  constructor
  · intro ns names found
    rw [standsAt_empty] at found
    split at found
    next =>
      rw [Option.some.injEq, Entry.dir.injEq] at found
      subst found
      simp
    next => cases found
  · intro ns x _ there
    rw [standsAt_empty] at there
    split at there
    next same =>
      rw [below_concat] at same
      have last := congrArg List.getLast? same
      simp at last
    next => exact absurd rfl there

variable {root : Path} {d : MemoryDisk}

theorem edits_inOrder (some_root : root.parts ≠ []) {es : List Edit}
    (h : InOrder root.parts d.entries) (allowed : d.AllowsAll root es) :
    InOrder root.parts (d.edits root es).entries := by
  induction es generalizing d with
  | nil => exact h
  | cons e rest ih => exact ih (edit_inOrder h some_root allowed.1.1 allowed.1.2) allowed.2

theorem edits_faults (es : List Edit) : (d.edits root es).metadataFaults = d.metadataFaults := by
  induction es generalizing d with
  | nil => rfl
  | cons e rest ih => exact (ih (d := d.edit root e)).trans edit_faults

theorem AllowsAll.normal {es : List Edit} (allowed : d.AllowsAll root es) :
    ∀ e ∈ es, e.path.IsNormalized := by
  induction es generalizing d with
  | nil => simp
  | cons e rest ih =>
    intro e' he
    rcases List.mem_cons.mp he with rfl | he
    · exact allowed.1.1
    · exact ih allowed.2 e' he

theorem edits_blank {es : List Edit} (normal : ∀ e ∈ es, e.path.IsNormalized)
    (h : standsAt d.entries [] = none) : standsAt (d.edits root es).entries [] = none := by
  induction es generalizing d with
  | nil => exact h
  | cons e rest ih =>
    exact ih (fun e he => normal e (by simp [he])) (edit_blank (normal e (by simp)) h)

end MemoryDisk

namespace Project

variable {project : Project} {p : Path}

/-- What holds of a project all the time. -/
structure Sound (project : Project) : Prop where
  tidy : project.graph.Tidy
  linked : project.graph.Linked
  order : MemoryDisk.InOrder project.graph.root.parts project.disk.entries
  root : Storage.isDir project.disk project.graph.root = true
  some_root : project.graph.root.parts ≠ []
  faultless : project.disk.metadataFaults = []

/-- What a step owes to a project: it stays sound, a path that is not changed stays fresh, and the
path of a refresh becomes so. -/
structure Advances (project : Project) (s : Step) : Prop where
  sound : (project.step s).Sound
  root : (project.step s).graph.root = project.graph.root
  options : (project.step s).graph.options = project.graph.options
  fresh : ∀ p : Path, p.IsNormalized → s.Renews p →
    (project.step s).graph.Fresh (project.step s).disk p
  disk : (∀ e, s ≠ .edit e) → (project.step s).disk = project.disk
  kept : ∀ p : Path, p.IsNormalized → (∀ e, s = .edit e → e.path ≠ p) →
    project.graph.Fresh project.disk p → (project.step s).graph.Fresh (project.step s).disk p
  reports : s.Rereads → project.graph.KeepsReports (project.step s).graph

theorem edit_advances (h : project.Sound) {e : Edit}
    (allowed : project.Allows (.edit e)) : project.Advances (.edit e) := by
  obtain ⟨normal, admitted⟩ := allowed
  have root := MemoryDisk.edit_root h.some_root normal (MemoryDisk.isDir_eq_true.mp h.root)
  refine ⟨⟨h.tidy, h.linked, MemoryDisk.edit_inOrder h.order h.some_root normal admitted,
    MemoryDisk.isDir_eq_true.mpr root, h.some_root, MemoryDisk.edit_faults.trans h.faultless⟩,
    rfl, rfl, fun _ _ none_ => none_.elim, fun not_edit => absurd rfl (not_edit e), ?_,
    fun _ => .of_report rfl⟩
  intro p hp other known
  have same := MemoryDisk.contentAt_edit (d := project.disk)
    fun same => other e rfl (MemoryDisk.join_injective project.graph.root normal hp same)
  change project.graph.rawAt p = project.graph.onDisk (project.disk.edit project.graph.root e) p
  rw [FileGraph.onDisk, FileGraph.absolute, MemoryDisk.contents_eq, same, ← MemoryDisk.contents_eq]
  exact known

theorem outcome_advances (h : project.Sound) (master : Path) (diagnostics : List Diagnostic)
    (unhandled : List String) (artifact : Option Path) (time : Nat) :
    project.Advances (.outcome master diagnostics unhandled artifact time) := by
  have linkage := FileGraph.linkage_applyOutcome project.graph master diagnostics unhandled artifact
    time
  have bare := FileGraph.bare_of_linkage linkage
  let new := project.graph.applyOutcome master diagnostics unhandled artifact time
  have root : new.root = project.graph.root := (congrArg FileGraph.root bare :)
  have options : new.options = project.graph.options := (congrArg FileGraph.options bare :)
  have linked : new.Linked := h.linked.of_linkage linkage
  refine ⟨⟨h.tidy.of_bare bare, linked, ?_, ?_, ?_, h.faultless⟩, root, options,
    fun _ _ none_ => none_.elim, fun _ => rfl, ?_, ?_⟩
  · change MemoryDisk.InOrder new.root.parts _
    rw [root]
    exact h.order
  · change Storage.isDir project.disk new.root = true
    rw [root]
    exact h.root
  · change new.root.parts ≠ []
    rw [root]
    exact h.some_root
  · intro p _ _ known
    exact known.of_bare bare
  · rintro ⟨_, none_⟩
    exact none_.elim

theorem refresh_advances (h : project.Sound) (normal : p.IsNormalized) :
    project.Advances (.refresh p) := by
  obtain ⟨disk, linked, renews⟩ := FileGraph.refresh_renews h.tidy h.linked h.faultless normal
  have sound : (project.step (.refresh p)).Sound := by
    refine ⟨renews.tidy, linked, ?_, ?_, ?_, ?_⟩ <;> simp only [step, ofReading, disk, renews.root]
    · exact h.order
    · exact h.root
    · exact h.some_root
    · exact h.faultless
  refine ⟨sound, renews.root, renews.options, ?_, fun _ => disk, ?_, fun _ => renews.reports⟩
  · intro q hq again
    simp only [step, ofReading, disk]
    exact renews.fresh q hq again
  · intro q hq _ known
    simp only [step, ofReading, disk]
    by_cases same : q = p
    · exact renews.fresh q hq same
    · exact renews.kept q hq same known

theorem rebuild_advances (h : project.Sound) : project.Advances .rebuild := by
  obtain ⟨_, disk, linked, renews⟩ :=
    FileGraph.rebuild_renews h.tidy h.order h.root h.faultless
  have sound : (project.step .rebuild).Sound := by
    refine ⟨renews.tidy, linked, ?_, ?_, ?_, ?_⟩ <;> simp only [step, ofReading, disk, renews.root]
    · exact h.order
    · exact h.root
    · exact h.some_root
    · exact h.faultless
  refine ⟨sound, renews.root, renews.options, ?_, fun _ => disk, ?_, fun _ => renews.reports⟩ <;>
    simp only [step, ofReading, disk]
  · exact fun q hq _ => renews.fresh q hq trivial
  · exact fun q hq _ _ => renews.fresh q hq trivial

theorem step_advances (h : project.Sound) {s : Step} (allowed : project.Allows s) :
    project.Advances s := by
  cases s with
  | edit e => exact edit_advances h allowed
  | outcome => exact outcome_advances h _ _ _ _ _
  | refresh p => exact refresh_advances h allowed
  | rebuild => exact rebuild_advances h

/-- A sound project stays sound. -/
theorem run_sound (h : project.Sound) {steps : List Step} (allowed : project.AllowsAll steps) :
    (project.run steps).Sound ∧ (project.run steps).graph.root = project.graph.root ∧
      (project.run steps).graph.options = project.graph.options := by
  induction steps generalizing project with
  | nil => exact ⟨h, rfl, rfl⟩
  | cons s rest ih =>
    have here_ := step_advances h allowed.1
    obtain ⟨sound, root, options⟩ := ih here_.sound allowed.2
    exact ⟨sound, root.trans here_.root, options.trans here_.options⟩

/-- A path ends up fresh if it is fresh or will be read again, as long as changes are followed by
another reading. -/
theorem run_fresh (h : project.Sound) {steps : List Step} (allowed : project.AllowsAll steps)
    (caught : CatchUp steps) (normal : p.IsNormalized)
    (known : project.graph.Fresh project.disk p ∨ ∃ s ∈ steps, s.Renews p) :
    (project.run steps).graph.Fresh (project.run steps).disk p := by
  induction steps generalizing project with
  | nil => exact known.resolve_right (by simp)
  | cons s rest ih =>
    have here_ := step_advances h allowed.1
    have caught_rest : CatchUp rest := by
      cases s with
      | edit e => exact caught.2
      | outcome => exact caught
      | refresh q => exact caught
      | rebuild => exact caught
    refine ih here_.sound allowed.2 caught_rest ?_
    -- A change of the path itself leaves its reading ahead; no other step takes freshness away.
    by_cases changed : ∃ e, s = .edit e ∧ e.path = p
    · obtain ⟨e, rfl, rfl⟩ := changed
      exact .inr caught.1
    · rcases known with fresh | ⟨t, ht, again⟩
      · refine .inl (here_.kept p normal ?_ fresh)
        rintro e rfl same
        exact changed ⟨e, rfl, same⟩
      · rcases List.mem_cons.mp ht with rfl | ht
        · exact .inl (here_.fresh p normal again)
        · exact .inr ⟨t, ht, again⟩

/-- No reading in a run changes what compiles have said about a path that stays tracked. -/
theorem run_keeps_reports (h : project.Sound) {front : List Step} {s : Step} {back : List Step}
    (allowed : project.AllowsAll (front ++ s :: back)) (reads : s.Rereads) :
    (project.run front).graph.KeepsReports (project.run (front ++ [s])).graph := by
  induction front generalizing project with
  | nil => exact (step_advances h allowed.1).reports reads
  | cons t rest ih => exact ih (step_advances h allowed.1).sound allowed.2

end Project

namespace FileGraph

/-- A build starts in a directory and is a rebuild of a graph that tracks nothing. -/
theorem build_eq {root : Path} {options : GraphOptions} {d : MemoryDisk}
    {reading : Reading MemoryDisk} (built : build root options d = .ok reading) :
    Storage.isDir d root = true ∧ reading = ((FileGraph.empty root options).rebuild d).2 := by
  have succeeds := rebuild_of_build built
  refine ⟨?_, by rw [succeeds]⟩
  unfold rebuild at succeeds
  dsimp only at succeeds
  split at succeeds
  next => cases succeeds
  next found =>
    obtain ⟨paths, scanned, -⟩ := discover_ok found
    exact scan_root scanned

/-- On an orderly disk a build succeeds. -/
theorem build_renews {root : Path} (options : GraphOptions) {d : MemoryDisk}
    (order : MemoryDisk.InOrder root.parts d.entries) (is_dir : Storage.isDir d root = true)
    (faultless : d.metadataFaults = []) :
    ∃ reading, build root options d = .ok reading ∧ reading.storage = d ∧ reading.graph.Linked ∧
      Renews (FileGraph.empty root options) d reading.graph fun _ => True := by
  obtain ⟨succeeds, disk, linked, renews⟩ :=
    rebuild_renews (tidy_empty root options) order is_dir faultless
  exact ⟨_, build_of_rebuild succeeds, disk, linked, renews⟩

end FileGraph

namespace Project

/-- The root of a project that could be built has parts. -/
theorem built_root {root : Path} {options : GraphOptions} {setup : List Edit}
    {start : FileGraph.Reading MemoryDisk} (normal : ∀ e ∈ setup, e.path.IsNormalized)
    (built : FileGraph.build root options (MemoryDisk.empty.edits root setup) = .ok start) :
    root.parts ≠ [] := by
  intro none_
  obtain ⟨names, found⟩ := MemoryDisk.isDir_eq_true.mp (FileGraph.build_eq built).1
  have blank : standsAt (MemoryDisk.empty.edits root setup).entries [] = none :=
    MemoryDisk.edits_blank normal (by decide +kernel)
  rw [none_, blank] at found
  cases found

section Built

variable {root : Path} {options : GraphOptions} {setup : List Edit}
  {start : FileGraph.Reading MemoryDisk} (laid_out : MemoryDisk.empty.AllowsAll root setup)
  (built : FileGraph.build root options (MemoryDisk.empty.edits root setup) = .ok start)

include laid_out built

/-- A project that was just built is sound, and all its paths are fresh. -/
theorem built_sound :
    (ofReading start).Sound ∧ start.storage = MemoryDisk.empty.edits root setup ∧
      FileGraph.Renews (FileGraph.empty root options) start.storage start.graph fun _ => True := by
  obtain ⟨is_dir, rebuilt⟩ := FileGraph.build_eq built
  have some_root := built_root laid_out.normal built
  have order := MemoryDisk.edits_inOrder some_root (MemoryDisk.empty_inOrder root.parts) laid_out
  have faultless : (MemoryDisk.empty.edits root setup).metadataFaults = [] :=
    MemoryDisk.edits_faults setup
  obtain ⟨_, disk, linked, renews⟩ :=
    FileGraph.rebuild_renews (FileGraph.tidy_empty root options) order is_dir faultless
  rw [← rebuilt] at disk linked renews
  have sound : (ofReading start).Sound := by
    refine ⟨renews.tidy, linked, ?_, ?_, ?_, ?_⟩ <;> simp only [ofReading, disk, renews.root]
    · exact order
    · exact is_dir
    · exact some_root
    · exact faultless
  exact ⟨sound, disk, disk.symm ▸ renews⟩

/-- Whatever files are written and deleted after a build, and in whatever order the graph is
refreshed or rebuilt: once every changed path is caught up with, the graph is linked as one that is
built from the disk as it is then. On the way no refresh and no rebuild touches what compiles have
said about a tracked path. -/
theorem run_matches_build {steps : List Step} (allowed : (ofReading start).AllowsAll steps)
    (caught : CatchUp steps) :
    (∃ fresh, FileGraph.build root options ((ofReading start).run steps).disk = .ok fresh ∧
      ((ofReading start).run steps).graph.mapFiles SourceFile.linkage =
        fresh.graph.mapFiles SourceFile.linkage) ∧
    ∀ front s back, steps = front ++ s :: back → s.Rereads →
      ((ofReading start).run front).graph.KeepsReports
        ((ofReading start).run (front ++ [s])).graph := by
  obtain ⟨sound, _, renews⟩ := built_sound laid_out built
  obtain ⟨ended, end_root, end_options⟩ := run_sound sound allowed
  have root_eq : ((ofReading start).run steps).graph.root = root := end_root.trans renews.root
  refine ⟨?_, ?_⟩
  · obtain ⟨fresh, done, _, fresh_linked, fresh_renews⟩ := FileGraph.build_renews options
      (root_eq ▸ ended.order) (root_eq ▸ ended.root) ended.faultless
    refine ⟨fresh, done, ?_⟩
    have known (p : Path) (normal : p.IsNormalized) :
        ((ofReading start).run steps).graph.Fresh ((ofReading start).run steps).disk p :=
      run_fresh sound allowed caught normal (.inl (renews.fresh p normal trivial))
    have bare := FileGraph.bare_of_fresh ended.tidy fresh_renews.tidy
      (fresh_renews.root.trans root_eq.symm)
      (fresh_renews.options.trans (end_options.trans renews.options).symm) known
      fun p normal => fresh_renews.fresh p normal trivial
    rw [ended.linked, fresh_linked, bare]
  · rintro front s back rfl reads
    exact run_keeps_reports sound allowed reads

end Built

/-- A file that includes another one, which is not there yet. -/
def lateSetup : List Edit :=
  [.write (.ofNames ["main.ink"]) "INCLUDE part.ink\n".toUTF8]

/-- The other file is written, a compile of the first one fails, and the other is refreshed. -/
def lateSteps : List Step :=
  [.edit (.write (.ofNames ["part.ink"]) "Once.\n".toUTF8),
    .outcome (.ofNames ["main.ink"]) [] ["no compiler"] none 7,
    .refresh (.ofNames ["part.ink"])]

theorem late_part_matches_build :
    ∃ start, FileGraph.build (.ofText "/story") { extension := "ink" }
        (MemoryDisk.empty.edits (.ofText "/story") lateSetup) = .ok start ∧
      ((ofReading start).run lateSteps).graph.paths.map Path.text = ["main.ink", "part.ink"] ∧
      (∃ fresh, FileGraph.build (.ofText "/story") { extension := "ink" }
        ((ofReading start).run lateSteps).disk = .ok fresh ∧
        ((ofReading start).run lateSteps).graph.mapFiles SourceFile.linkage =
          fresh.graph.mapFiles SourceFile.linkage) ∧
      ∀ front s back, lateSteps = front ++ s :: back → s.Rereads →
        ((ofReading start).run front).graph.KeepsReports
          ((ofReading start).run (front ++ [s])).graph := by
  have normal (x : String) (name : IsName x) : (Path.ofNames [x]).IsNormalized :=
    Path.isNormalized_ofNames (by simp) (by simpa using name)
  have main : (Path.ofNames ["main.ink"]).IsNormalized :=
    normal "main.ink" ⟨by decide +kernel, by decide +kernel⟩
  have part : (Path.ofNames ["part.ink"]).IsNormalized :=
    normal "part.ink" ⟨by decide +kernel, by decide +kernel⟩
  have laid_out : MemoryDisk.empty.AllowsAll (.ofText "/story") lateSetup :=
    ⟨⟨main, by decide +kernel⟩, trivial⟩
  have succeeds : (FileGraph.build (.ofText "/story") { extension := "ink" }
      (MemoryDisk.empty.edits (.ofText "/story") lateSetup)).toOption.isSome = true := by
    decide +kernel
  cases built : FileGraph.build (.ofText "/story") { extension := "ink" }
      (MemoryDisk.empty.edits (.ofText "/story") lateSetup) with
  | error e =>
    rw [built] at succeeds
    cases succeeds
  | ok start =>
    have rebuilt := (FileGraph.build_eq built).2
    subst rebuilt
    have allowed : (ofReading ((FileGraph.empty (.ofText "/story") { extension := "ink" }).rebuild
        (MemoryDisk.empty.edits (.ofText "/story") lateSetup)).2).AllowsAll lateSteps :=
      ⟨⟨part, by decide +kernel⟩, trivial, part, trivial⟩
    have caught : CatchUp lateSteps := ⟨⟨.refresh (.ofNames ["part.ink"]), by simp, rfl⟩, trivial⟩
    exact ⟨_, rfl, by decide +kernel, run_matches_build laid_out built allowed caught⟩

end Project

end StoryBuild
