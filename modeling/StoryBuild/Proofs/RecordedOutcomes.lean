import StoryBuild.Proofs.KnownOutcomes
import StoryBuild.Proofs.FileOrder

namespace StoryBuild

theorem Job.sortById_of_sorted {jobs : List Job} (order : jobs.Pairwise fun a b => a.id ≤ b.id) :
    sortById jobs = jobs := by
  induction jobs with
  | nil => rfl
  | cons j rest ih =>
    obtain ⟨behind, later⟩ := List.pairwise_cons.mp order
    change insertById j (sortById rest) = j :: rest
    rw [ih later]
    cases rest with
    | nil => rfl
    | cons k rest => exact if_pos (behind k List.mem_cons_self)

namespace Engine

variable {e d f : Engine Sandbox} {m q : Path} {ms ns : List Path} {a : Act Sandbox}

/-- Neither the snapshot nor the artifacts of some masters show at a source. -/
structure LeavesAlone (e : Engine Sandbox) (ms : List Path) (q : Path) : Prop where
  snapshot : ∀ p, e.options.statePath = some p → ¬ p.ShowsAt q.parts
  artifacts : ∀ m ∈ ms, ¬ (e.graph.absolute (e.graph.artifactPath m)).ShowsAt q.parts

/-- An engine without a batch that has put the outcomes of some masters on record, in order. -/
structure Recorded (e d : Engine Sandbox) (ms : List Path) : Prop where
  mode : d.mode = e.mode
  undeferred : d.deferredEntry = false
  none_waits : d.pending.order = []
  idle : d.isBusy = false
  taken : e.site.workers = .taken
  sane : (d.desk .steady true).Sane
  sources : ∀ q, e.LeavesAlone ms q → Storage.readText d.site q = Storage.readText e.site q
  records : ∃ jobs : List Job, (jobs.map fun j => some j.report) = ms.map e.report? ∧
    (jobs.foldl applyJob ({}, e)).2.Alike d

theorem report_output {r : JobReport} (reported : e.report? m = some r) :
    r.output = e.graph.absolute (e.graph.artifactPath m) := by
  obtain ⟨o, -, rfl⟩ := Option.map_eq_some_iff.mp reported
  rfl

theorem persist_eq (d : Engine Sandbox) : ∃ site trace,
    Sandbox.Saves d.options.statePath d.site site ∧ d.persist = { d with site, trace } := by
  have saves : Sandbox.Saves d.options.statePath d.site d.persist.site :=
    Desk.course_saves (R := Rules.endless) (persist_course Stage.maySave_steady d true) fun _ => id
  have same : ∃ site trace, d.persist = { d with site, trace } := by
    unfold persist
    split
    next => exact ⟨_, _, rfl⟩
    next =>
      dsimp only
      split <;> exact ⟨_, _, rfl⟩
  obtain ⟨site, trace, same⟩ := same
  rw [same] at saves
  exact ⟨site, trace, saves, same⟩

/-- Without a deferred entry, the end of a batch is its record, a snapshot and some words. -/
theorem endBatch_eq (undeferred : d.deferredEntry = false) : ∃ site suspended trace,
    Sandbox.Saves d.options.statePath d.applyBatch.2.site site ∧
      d.endBatch.2 =
        { d with
          jobs := []
          abandoned := []
          graph := d.applyBatch.2.graph
          site, suspended, trace } := by
  have told (f : Engine Sandbox) (s : Summary) :
      ∃ suspended trace, f.releaseHost.tell (.stackCompleted s) = { f with suspended, trace } := by
    unfold releaseHost
    split <;> exact ⟨_, _, rfl⟩
  have replayed {f : Engine Sandbox} (s : Summary) (undeferred : f.deferredEntry = false) :
      f.replayEntry s = f := by
    rw [replayEntry, if_neg (by simp [undeferred])]
  obtain ⟨graph, site, trace, filed⟩ :=
    applyJobs_eq d.batchJobs {} { d with jobs := [], abandoned := [] }
  have applied : d.applyBatch.2 =
      { d with
        jobs := []
        abandoned := []
        graph, site
        trace := .drained d.batchJobs d.applyBatch.1 :: trace } :=
    congrArg (fun f : Engine Sandbox => f.note (.drained d.batchJobs d.applyBatch.1)) filed
  obtain ⟨site', trace', saves, saved⟩ := d.applyBatch.2.persist_eq
  obtain ⟨suspended, trace'', same⟩ := told d.applyBatch.2.persist d.applyBatch.1
  refine ⟨site', suspended, trace'', ?_, ?_⟩
  · rw [applied] at saves ⊢
    exact saves
  · change replayEntry (d.applyBatch.2.persist.releaseHost.tell (.stackCompleted d.applyBatch.1))
      d.applyBatch.1 = _
    rw [same, saved, applied]
    exact replayed _ undeferred

namespace Pledges

theorem batchJobs_eq (h : e.Pledges d ms) : d.batchJobs = d.jobs := by
  have sorted := h.sane.kept.ordered.order.imp fun before => Nat.le_of_lt before.id
  rw [batchJobs, h.abandoned, List.append_nil]
  exact Job.sortById_of_sorted sorted

theorem reports (h : e.Pledges d ms) (ended : ∀ j ∈ d.jobs, j.isComplete = true) :
    (d.jobs.map fun j => some j.report) = ms.map e.report? := by
  rw [← h.masters, List.map_map]
  refine List.map_congr_left fun j hj => ?_
  have pledged := h.each j hj
  change some j.report = (e.outcome? j.path).map _
  rw [pledged.complete (ended j hj), Job.report, pledged.output]
  rfl

/-- When all jobs are complete, the end of the batch puts their outcomes on record. -/
theorem recorded (h : e.Pledges d ms) (order : InPathOrder e.graph.files)
    (ended : ∀ j ∈ d.jobs, j.isComplete = true) : e.Recorded d.endBatch.2 ms := by
  obtain ⟨site, suspended, trace, saves, done⟩ := endBatch_eq h.undeferred
  rw [h.options] at saves
  have filed : d.applyBatch.2 = (d.jobs.foldl applyJob
      ({}, { d with jobs := [], abandoned := [] })).2.note (.drained d.jobs d.applyBatch.1) := by
    rw [← h.batchJobs_eq]
    rfl
  refine ⟨?_, ?_, ?_, ?_, h.taken, ?_, fun q alone => ?_, d.jobs, h.reports ended, ?_⟩
  · rw [done]
    exact h.mode
  · rw [done]
    exact h.undeferred
  · rw [done]
    exact h.none_waits
  · rw [done]
    rfl
  · have course := endBatch_course (R := Rules.free) d trivial fun _ _ _ => trivial
    have sane := Desk.course_sane course h.sane
    exact ⟨sane.kept, sane.traced, sane.valid⟩
  · have wrote : Storage.readText d.applyBatch.2.site q = Storage.readText e.site q := by
      rw [filed]
      refine applyJobs_site (P := fun s => Storage.readText s q = Storage.readText e.site q) d.jobs
        {} { d with jobs := [], abandoned := [] } (fun j hj site content same => ?_)
        (h.saves.readText alone.snapshot)
      have away := alone.artifacts j.path (h.masters ▸ List.mem_map_of_mem hj)
      rw [← (h.each j hj).output] at away
      exact (Sandbox.readText_write away site content).trans same
    rw [done]
    exact (saves.readText alone.snapshot).trans wrote
  · have like : e.Alike { d with jobs := [], abandoned := [] } :=
      ⟨h.options, congrArg FileGraph.timeless h.graph, h.saves.alike⟩
    have away : ∀ j ∈ d.jobs, Sandbox.Elsewhere e.options.statePath j.output.parts := by
      intro j hj
      rw [(h.each j hj).output]
      exact (h.determined_job hj).artifact
    have applied : (d.jobs.foldl applyJob ({}, e)).2.Alike d.applyBatch.2 := by
      obtain ⟨options, graph, site⟩ := applyJobs_alike order like rfl away {} {}
      rw [filed]
      exact ⟨options, graph, site⟩
    have options : d.applyBatch.2.options = e.options := by
      rw [applied.options]
      exact applyJobs_options ..
    rw [done]
    refine applied.trans ⟨?_, rfl, ?_⟩
    · rw [options, ← h.options]
    · rw [options]
      exact saves.alike

/-- An engine that has no jobs has put nothing on record. -/
theorem recorded_nothing (h : e.Pledges d ms) (idle : d.isBusy = false) :
    ms = [] ∧ e.Recorded d [] := by
  have nothing : ms = [] := by rw [← h.masters, (isBusy_eq_false.mp idle).1, List.map_nil]
  refine ⟨nothing, h.mode, h.undeferred, h.none_waits, idle, h.taken, h.sane, fun q alone => ?_, [],
    rfl, h.options, congrArg FileGraph.timeless h.graph, h.saves.alike⟩
  exact h.saves.readText alone.snapshot

end Pledges

namespace Recorded

theorem options (h : e.Recorded d ms) : d.options = e.options := by
  obtain ⟨jobs, -, like⟩ := h.records
  rw [like.options, applyJobs_options]

theorem links (h : e.Recorded d ms) :
    d.graph.mapFiles SourceFile.linkage = e.graph.mapFiles SourceFile.linkage := by
  obtain ⟨jobs, -, like⟩ := h.records
  exact (FileGraph.linkage_of_timeless like.graph).trans (applyJobs_links jobs {} e)

theorem place (h : e.Recorded d ms) : d.graph.place = e.graph.place :=
  (congrArg FileGraph.place h.links :)

theorem scripts (h : e.Recorded d ms) : d.site.scripts = e.site.scripts := by
  obtain ⟨jobs, -, like⟩ := h.records
  rw [like.site.scripts]
  exact applyJobs_site (P := fun s => s.scripts = e.site.scripts) jobs {} e
    (fun _ _ _ _ same => same) rfl

theorem workers (h : e.Recorded d ms) : d.site.workers = e.site.workers := by
  obtain ⟨jobs, -, like⟩ := h.records
  rw [like.site.workers]
  exact applyJobs_site (P := fun s => s.workers = e.site.workers) jobs {} e
    (fun _ _ _ _ same => same) rfl

/-- A master whose source was left alone comes to the same as before. -/
theorem report_eq (h : e.Recorded d ms) (alone : e.LeavesAlone ms (e.graph.absolute m)) :
    d.report? m = e.report? m := by
  have read := h.sources _ alone
  have script : d.site.scriptOf m = e.site.scriptOf m := by
    rw [Sandbox.scriptOf, h.scripts]
    rfl
  have outcome : d.outcome? m = e.outcome? m := by
    rw [outcome?, outcome?, FileGraph.absolute_of_place h.place, read, script]
  rw [report?, report?, outcome, FileGraph.artifact_of_place h.place]

theorem determined (h : e.Recorded d ms) (alone : e.LeavesAlone ms (e.graph.absolute m))
    (determined : e.Determined m) : d.Determined m := by
  have outcome : (d.outcome? m).isSome = (e.outcome? m).isSome := by
    have same := congrArg Option.isSome (h.report_eq alone)
    simpa only [report?, Option.isSome_map] using same
  refine ⟨outcome.trans determined.outcome, ?_, ?_⟩
  · rw [h.options, FileGraph.absolute_of_place h.place]
    exact determined.source
  · rw [h.options, FileGraph.artifact_of_place h.place]
    exact determined.artifact

/-- What is put on record after other outcomes is put on record with them. -/
theorem trans (h : e.Recorded d ms) (h' : d.Recorded f ns) (order : InPathOrder e.graph.files)
    (same : ns.map d.report? = ns.map e.report?) (determined : ∀ n ∈ ns, e.Determined n) :
    e.Recorded f (ms ++ ns) := by
  obtain ⟨jobs, reports, like⟩ := h.records
  obtain ⟨jobs', reports', like'⟩ := h'.records
  refine ⟨h'.mode.trans h.mode, h'.undeferred, h'.none_waits, h'.idle, h.taken, h'.sane,
    fun q alone => ?_, jobs ++ jobs', ?_, ?_⟩
  · have first : e.LeavesAlone ms q :=
      ⟨alone.snapshot, fun m hm => alone.artifacts m (List.mem_append_left ns hm)⟩
    have next : d.LeavesAlone ns q := by
      refine ⟨h.options ▸ alone.snapshot, fun n hn => ?_⟩
      rw [FileGraph.artifact_of_place h.place]
      exact alone.artifacts n (List.mem_append_right ms hn)
    exact (h'.sources q next).trans (h.sources q first)
  · rw [List.map_append, List.map_append, reports, reports', same]
  · have links := applyJobs_links jobs {} e
    have options := applyJobs_options jobs {} e
    rw [List.foldl_append]
    refine .trans (applyJobs_alike (FileGraph.inPathOrder_of_linkage order links) like rfl
      (fun j hj => ?_) _ {}) like'
    obtain ⟨n, hn, reported⟩ : ∃ n ∈ ns, e.report? n = some j.report :=
      List.mem_map.mp (same ▸ reports' ▸ List.mem_map_of_mem hj)
    rw [options, show j.output = _ from report_output reported]
    exact (determined n hn).artifact

end Recorded

/-- Whether this may happen while an engine is waited for in time: a look that gives no compile up,
compiles that are let go, and time that passes. -/
def isPunctual (e : Engine Sandbox) : Act Sandbox → Bool
  | .poll now => (e.pollAt now).1.timedOut.isEmpty
  | .release _ => true
  | .timePasses _ => true
  | _ => false

/-- Whether all this may happen, one after the other. -/
def punctual : Engine Sandbox → List (Act Sandbox) → Bool
  | _, [] => true
  | e, a :: rest => e.isPunctual a && punctual (e.act a) rest

theorem expire_of_in_time {now : Nat} (in_time : (d.expire now).1 = []) :
    (d.expire now).2.2 = d := by
  unfold expire at in_time ⊢
  split
  next => rfl
  next j found =>
    split
    next late => simp [found, late] at in_time
    next => rfl

theorem pollAt_pledges {now : Nat} (order : InPathOrder e.graph.files) (h : e.Pledges d ms)
    (in_time : (d.pollAt now).1.timedOut = []) :
    e.Pledges (d.pollAt now).2 ms ∨ e.Recorded (d.pollAt now).2 ms := by
  have before : e.Pledges (d.beforeEnd now) ms := by
    unfold beforeEnd
    rw [expire_of_in_time in_time]
    exact advance_pledges (collect_pledges h now) now
  rw [pollAt_after]
  unfold settle
  split
  next done =>
    simp only [Bool.and_eq_true, Bool.not_eq_true'] at done
    obtain ⟨⟨idle, none_⟩, -⟩ := done
    dsimp only
    rw [closeBatch_of_none_waits before.none_waits]
    refine .inr (before.recorded order fun j hj => ?_)
    have queued := List.any_eq_false.mp none_ j hj
    have compiling := List.any_eq_false.mp idle j hj
    exact Job.complete_of_neither (by simpa using queued) (by simpa using compiling)
  next => exact .inl before

theorem act_pledges (order : InPathOrder e.graph.files) (h : e.Pledges d ms)
    (in_time : d.isPunctual a = true) : e.Pledges (d.act a) ms ∨ e.Recorded (d.act a) ms := by
  cases a with
  | poll now => exact pollAt_pledges order h (List.isEmpty_iff.mp in_time)
  | release master => exact .inl (release_pledges h master)
  | timePasses millis => exact .inl (timePasses_pledges h millis)
  | _ => cases in_time

theorem act_recorded (order : InPathOrder e.graph.files) (h : e.Recorded d ms)
    (in_time : d.isPunctual a = true) : e.Recorded (d.act a) ms := by
  have order' : InPathOrder d.graph.files := FileGraph.inPathOrder_of_linkage order h.links
  have taken : d.site.workers = .taken := h.workers.trans h.taken
  have idle : d.Pledges d [] := pledges_idle h.sane h.idle h.none_waits h.undeferred taken
  have after : d.Recorded (d.act a) [] := by
    rcases act_pledges order' idle in_time with pledges | recorded
    · have jobs : (d.act a).jobs = [] := List.map_eq_nil_iff.mp pledges.masters
      exact (pledges.recorded_nothing (isBusy_eq_false.mpr ⟨jobs, pledges.abandoned⟩)).2
    · exact recorded
  have both := h.trans after order rfl (by simp)
  rwa [List.append_nil] at both

/-- An engine on the way to its outcomes gets there in its own time, and stays there. -/
theorem run_pledges {waits : List (Act Sandbox)} (order : InPathOrder e.graph.files)
    (h : e.Pledges d ms ∨ e.Recorded d ms) (in_time : d.punctual waits = true) :
    e.Pledges (d.run waits) ms ∨ e.Recorded (d.run waits) ms := by
  induction waits generalizing d with
  | nil => exact h
  | cons a rest ih =>
    obtain ⟨first, others⟩ := Bool.and_eq_true_iff.mp in_time
    refine ih ?_ others
    rcases h with pledges | recorded
    · exact act_pledges order pledges first
    · exact .inr (act_recorded order recorded first)

end Engine

end StoryBuild
