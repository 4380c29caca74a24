import StoryBuild.Proofs.Bystanders

namespace StoryBuild

namespace FileGraph

variable {σ : Type} [Storage σ] {g : FileGraph} {f : SourceFile}

/-- A master whose compile failed has to be compiled, whatever the disk says. -/
theorem staleMasters_of_failed (s : σ) (hf : f ∈ g.masterFiles) (failed : f.unhandled ≠ []) :
    f.path ∈ (g.staleMasters s).1 := by
  have loop (l : List SourceFile) : ∀ s : σ, f ∈ l → f.path ∈ (g.staleAmong s l).1 := by
    induction l with
    | nil => exact fun _ mem => absurd mem List.not_mem_nil
    | cons k rest ih =>
      intro s mem
      unfold staleAmong
      dsimp only
      rcases List.mem_cons.mp mem with rfl | later
      · have stale : (g.isStale s f).1 = true := by
          unfold isStale
          rw [if_pos (by simpa using failed)]
        rw [if_pos stale]
        exact List.mem_cons_self
      · have among := ih (g.isStale s k).2 later
        split
        next => exact List.mem_cons_of_mem _ among
        next => exact among
  exact loop g.masterFiles s hf

end FileGraph

namespace Engine

open FileGraph

variable {σ : Type} [Workshop σ] {e : Engine σ} {m : Path} {v : EndedJob}

/-- Jobs of others do not touch the record of a master. -/
theorem applyJobs_others (jobs : List Job) (s : Summary) (sound : e.graph.Sound)
    (master : e.graph.isMaster m = true) (others : ∀ j ∈ jobs, j.path.parts ≠ m.parts) :
    (jobs.foldl applyJob (s, e)).2.graph.file? m = e.graph.file? m := by
  induction jobs generalizing s e with
  | nil => rfl
  | cons j rest ih =>
    obtain ⟨⟨r, -, -, graph⟩, -⟩ := applyJob_result s e j
    have links := linkage_applyResult e.graph j.path r
    have first := sound.file_applyResult master (others j List.mem_cons_self) r
    rw [← graph] at links first
    have onward := ih (applyJob (s, e) j).1 (sound.of_linkage links)
      ((isMaster_of_linkage links m).trans master) fun k hk =>
        others k (List.mem_cons_of_mem j hk)
    exact onward.trans first

/-- The last job of a master has the last word on what failed outright. -/
theorem applyJobs_unhandled (jobs : List Job) (s : Summary) (sound : e.graph.Sound)
    (last : v.IsLast (endedJobs e.site jobs)) (master : e.graph.isMaster v.job.path = true) :
    ((jobs.foldl applyJob (s, e)).2.graph.file? v.job.path).map SourceFile.unhandled =
      some v.unhandled := by
  induction jobs generalizing s e with
  | nil =>
    obtain ⟨before, after, split_, -⟩ := last
    cases before <;> cases split_
  | cons j rest ih =>
    obtain ⟨⟨r, -, failed, graph⟩, site⟩ := applyJob_result s e j
    have links := linkage_applyResult e.graph j.path r
    rw [← graph] at links
    have sound' := sound.of_linkage links
    have master' := (isMaster_of_linkage links v.job.path).trans master
    obtain ⟨before, after, split_, others⟩ := last
    cases before with
    | cons first before =>
      obtain ⟨-, tail⟩ := List.cons.inj split_
      rw [← site] at tail
      exact ih (applyJob (s, e) j).1 sound' ⟨before, after, tail, others⟩ master'
    | nil =>
      obtain ⟨mine, tail⟩ := List.cons.inj split_
      subst mine
      have jobs : after.map EndedJob.job = rest := by
        rw [← tail]
        exact map_job_endedJobs rest (j.deliver e.site).2
      have apart : ∀ k ∈ rest, k.path.parts ≠ j.path.parts := by
        intro k hk
        rw [← jobs] at hk
        obtain ⟨w, hw, rfl⟩ := List.mem_map.mp hk
        exact Path.beq_false_iff.mp (others w hw)
      have kept := applyJobs_others rest (applyJob (s, e) j).1 sound' master' apart
      obtain ⟨f, found, -⟩ := (Option.any_eq_true _ _).mp master
      obtain ⟨hf, path⟩ := file_found found
      have same := Path.beq_iff.mpr path
      have settles : e.graph.covers j.path f = true := by
        rw [covers, mem_family_self hf path, same]
        rfl
      rw [List.foldl_cons, kept, graph, applyResult_eq sound.order,
        file_mapFiles e.graph fun f => recordAfter_path e.graph j.path r f, found, Option.map_some,
        Option.map_some, recordAfter_of_covers r settles, if_pos same]
      exact congrArg some failed

/-- The record stays while the host is told and waiting masters are taken up. -/
theorem closeBatch_graph (e : Engine σ) (now : Nat) :
    (e.closeBatch now).2.graph = e.applyBatch.2.graph := by
  have ended : e.endBatch.2.graph = e.applyBatch.2.graph := by
    have released (d : Engine σ) : d.releaseHost.graph = d.graph := by
      unfold releaseHost
      split <;> rfl
    have replayed (d : Engine σ) (s : Summary) : (d.replayEntry s).graph = d.graph := by
      unfold replayEntry
      split
      next =>
        dsimp only
        split <;> rfl
      next => rfl
    change (replayEntry (tell _ _) _).graph = _
    rw [replayed]
    exact (released _).trans (persist_ground _).graph
  have submitted (d : Engine σ) (p : Path) : (d.submit p false now).2.graph = d.graph := by
    unfold submit
    split
    next refusal _ => cases refusal <;> rfl
    next => exact (drain_ground _ now).graph.trans (d.addJob_graph p false)
  have promoted (d : Engine σ) : (d.promote now).graph = d.graph :=
    promote_preserves (P := fun f => f.graph = d.graph) (fun _ h => h) (fun _ h => h)
      (fun p h => (submitted _ p).trans h) (fun h => (persist_ground _).graph.trans h) rfl
  rw [← ended]
  unfold closeBatch
  dsimp only
  split
  next => exact promoted _
  next => rfl

/-- Whether every master whose last job of a batch failed has to be compiled. -/
def ShowsFailures (now : Engine σ) (ended : List EndedJob) : Prop :=
  ∀ v : EndedJob, v.IsLast ended → v.unhandled ≠ [] → now.graph.isMaster v.job.path = true →
    (now.graph.staleMasters now.site).1.any (· == v.job.path) = true

theorem closeBatch_showsFailures (sound : e.graph.Sound) (now : Nat) :
    (e.closeBatch now).2.ShowsFailures e.ended := by
  intro v last failed master
  have graph := e.closeBatch_graph now
  obtain ⟨change, site, events, -, -, links, same⟩ := e.applyBatch_desk .due true
  have links' : e.applyBatch.2.graph.mapFiles SourceFile.linkage =
      e.graph.mapFiles SourceFile.linkage := by
    rw [show e.applyBatch.2.graph = _ from congrArg Desk.graph same]
    exact links
  have master' : e.graph.isMaster v.job.path = true := by
    rwa [← isMaster_of_linkage links', ← graph]
  have unhandled : (e.applyBatch.2.graph.file? v.job.path).map SourceFile.unhandled =
      some v.unhandled :=
    applyJobs_unhandled e.batchJobs {} (e := { e with jobs := [], abandoned := [] }) sound last
      master'
  rw [← graph] at unhandled
  obtain ⟨f, found, mine⟩ := Option.map_eq_some_iff.mp unhandled
  obtain ⟨hf, path⟩ := file_found found
  have is_master : f.isMaster = true := by
    rw [isMaster, found] at master
    exact master
  have listed := staleMasters_of_failed (e.closeBatch now).2.site
    (List.mem_filter.mpr ⟨hf, is_master⟩) (mine ▸ failed)
  exact List.any_eq_true.mpr ⟨f.path, listed, Path.beq_iff.mpr path⟩

/-- A look that ends a batch does so as it is said above. -/
theorem pollAt_showsFailures (sound : e.graph.Sound) (now : Nat)
    (completed : (e.pollAt now).1.completed.isSome = true) :
    (e.pollAt now).2.ShowsFailures (e.beforeEnd now).ended := by
  have sound' : (e.beforeEnd now).graph.Sound := by
    rw [(e.beforeEnd_ground now).graph]
    exact sound
  rw [pollAt_completed] at completed
  rw [pollAt_after]
  unfold settle at completed ⊢
  split
  next => exact closeBatch_showsFailures sound' now
  next goes_on =>
    rw [if_neg goes_on] at completed
    cases completed

end Engine

end StoryBuild
